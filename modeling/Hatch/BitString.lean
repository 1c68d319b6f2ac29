import Mathlib.Algebra.GroupWithZero.Nat
import Mathlib.Data.Nat.Init

/-!
# Bit strings read from the left

`ofBits` builds a bit vector from its bits, the leftmost first. `pack` writes words one
after the other and `select` picks bits by a table of positions counted from 1. A word of
four bytes is also given by shifts and masks, and a small number is its own signed value.
-/

namespace BitString

variable {n m w : ℕ}

def ofBits (f : Fin n → Bool) : BitVec n := BitVec.ofNat n (Nat.ofBits fun i => f i.rev)

@[simp] theorem getMsbD_ofBits (f : Fin n → Bool) {i : ℕ} (h : i < n) :
    (ofBits f).getMsbD i = f ⟨i, h⟩ := by
  have hi : n - 1 - i < n := by omega
  have hrev : Fin.rev ⟨n - 1 - i, hi⟩ = ⟨i, h⟩ := Fin.ext (by simp; omega)
  rw [BitVec.getMsbD_eq_getLsbD, ofBits, BitVec.getLsbD_ofNat, Nat.testBit_ofBits_lt _ _ hi, hrev]
  simp [h, hi]

theorem ext_msb {x y : BitVec n} (h : ∀ i : Fin n, x.getMsbD i = y.getMsbD i) : x = y :=
  BitVec.eq_of_getMsbD_eq fun i hi => h ⟨i, hi⟩

def select (table : Vector ℕ m) (x : BitVec n) : BitVec m :=
  ofBits fun i => x.getMsbD (table[i] - 1)

def pack (v : Vector (BitVec w) m) : BitVec (m * w) :=
  ofBits fun i => (v.get ⟨i / w, Nat.div_lt_of_lt_mul (Nat.mul_comm m w ▸ i.isLt)⟩).getMsbD (i % w)

theorem getMsbD_select (table : Vector ℕ m) (x : BitVec n) {i : ℕ} (h : i < m) :
    (select table x).getMsbD i = x.getMsbD (table[i] - 1) := by
  simp [select, h]

theorem getMsbD_pack (v : Vector (BitVec w) m) {i : ℕ} (h : i < m * w) :
    (pack v).getMsbD i =
      (v.get ⟨i / w, Nat.div_lt_of_lt_mul (Nat.mul_comm m w ▸ h)⟩).getMsbD (i % w) := by
  simp [pack, h]

/-- Two tables that list each other's positions undo each other. -/
theorem select_select {t u : Vector ℕ n}
    (h : ∀ i : Fin n, ∃ hi : t[i] - 1 < n, u[t[i] - 1] - 1 = i) (x : BitVec n) :
    select t (select u x) = x := by
  apply ext_msb
  intro i
  obtain ⟨hi, hu⟩ := h i
  rw [getMsbD_select t _ i.isLt]
  change (select u x).getMsbD (t[i] - 1) = _
  rw [getMsbD_select u x hi, hu]

/-- Bit `i` of eight bytes lies in byte `i / 8`. -/
theorem div_eight_lt (i : Fin 64) : i.val / 8 < 8 := by omega

/-- Byte `j` of four words lies in word `j / 4`. -/
theorem div_four_lt (j : Fin 16) : j.val / 4 < 4 := by omega

theorem append_bytes (b0 b1 b2 b3 : BitVec 8) :
    b3 ++ b2 ++ b1 ++ b0 = b0.setWidth 32 ||| b1.setWidth 32 <<< 8 ||| b2.setWidth 32 <<< 16 |||
      b3.setWidth 32 <<< 24 := by
  apply BitVec.eq_of_getLsbD_eq
  intro i hi
  have hge (b : BitVec 8) (j : ℕ) (hj : 8 ≤ j) : b.getLsbD j = false := BitVec.getLsbD_of_ge b j hj
  simp only [BitVec.getLsbD_append, BitVec.getLsbD_or, BitVec.getLsbD_shiftLeft,
    BitVec.getLsbD_setWidth]
  grind

theorem extract_bytes (x : BitVec 32) :
    x.extractLsb' 24 8 ++ x.extractLsb' 16 8 ++ x.extractLsb' 8 8 ++ x.extractLsb' 0 8 = x := by
  apply BitVec.eq_of_getLsbD_eq
  intro i hi
  simp only [BitVec.getLsbD_append, BitVec.getLsbD_extractLsb']
  grind

theorem extract_append_bytes (b : Fin 4 → BitVec 8) (k : Fin 4) :
    (b 0 ++ b 1 ++ b 2 ++ b 3).extractLsb' (24 - 8 * k) 8 = b k := by
  apply BitVec.eq_of_getLsbD_eq
  intro i hi
  simp only [BitVec.getLsbD_append, BitVec.getLsbD_extractLsb']
  match k with
  | 0 | 1 | 2 | 3 => grind

theorem shift_and_byte (x : BitVec 32) (k : ℕ) :
    ((x >>> k) &&& 0xFF).setWidth 8 = x.extractLsb' k 8 := by
  have hmask : ∀ i < 8, (0xFF : BitVec 32).getLsbD i = true := by decide
  apply BitVec.eq_of_getLsbD_eq
  intro i hi
  rw [BitVec.getLsbD_setWidth, BitVec.getLsbD_and, hmask i hi, BitVec.getLsbD_ushiftRight,
    BitVec.getLsbD_extractLsb', Bool.and_true]

/-- The sign bits that an arithmetic shift brings in lie above the byte. -/
theorem sshift_and_byte (x : BitVec 32) {k : ℕ} (h : k ≤ 24) :
    (x.sshiftRight k &&& 0xFF).setWidth 8 = x.extractLsb' k 8 := by
  have hmask : ∀ i < 8, (0xFF : BitVec 32).getLsbD i = true := by decide
  apply BitVec.eq_of_getLsbD_eq
  intro i hi
  have hlow : ¬ 32 ≤ i := by omega
  have hin : k + i < 32 := by omega
  rw [BitVec.getLsbD_setWidth, BitVec.getLsbD_and, hmask i hi, BitVec.getLsbD_sshiftRight,
    BitVec.getLsbD_extractLsb', if_pos hin, Bool.and_true, decide_eq_false hlow, Bool.not_false,
    Bool.true_and]

/-- A number in the lower half of the range is its own signed value. -/
theorem toInt_ofNat_of_lt {k : ℕ} (h : 2 * k < 2 ^ w) : (BitVec.ofNat w k).toInt = k := by
  have hnat : (BitVec.ofNat w k).toNat = k := by
    rw [BitVec.toNat_ofNat, Nat.mod_eq_of_lt (by omega)]
  rw [BitVec.toInt_eq_toNat_of_lt (by rwa [hnat]), hnat]

end BitString
