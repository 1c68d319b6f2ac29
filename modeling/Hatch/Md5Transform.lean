import Hatch.BitString
import Hatch.FixedArray
import Hatch.Md5
import Hatch.Rfc1321

/-!
# `MD5Transform` and the operations of RFC 1321

The lines of `MD5Transform` keep their four registers in place and name them in turn as
`a`, `d`, `c`, `b`, while the operations of the standard pass the words on. Each line is the
operation of the same number, its constant the sine of that number, and the whole function
processes one block.
-/

namespace Hatch.Md5

open BitString CountedLoop FixedArray SineTable
open Rfc1321 (Buffer roundOf wordIndex rotation operation)

def register (i : ℕ) (j : Fin 4) : Fin 4 := j - Fin.ofNat 4 i

def named (i : ℕ) (regs : Vector (BitVec 32) 4) : Buffer :=
  ⟨regs.get (register i 0), regs.get (register i 1), regs.get (register i 2),
    regs.get (register i 3)⟩

def roundName : Fin 4 → Round
  | 0 => .FF
  | 1 => .GG
  | 2 => .HH
  | 3 => .II

/-- The 64 lines follow the pattern of the standard. -/
theorem calls_get : ∀ i : Fin 64, calls.get i =
    ⟨roundName (roundOf i), register i 0, register i 1, register i 2, register i 3, wordIndex i,
      rotation i, (calls.get i).ac⟩ := by
  decide

theorem rotation_lt : ∀ i : Fin 64, rotation i < 32 := by decide

theorem reads_ac : ∀ i : Fin 64, Reads (2 * 64) 32 (point 64 (i + 1)) (calls.get i).ac.toNat := by
  decide +kernel

theorem t_eq_ac (i : Fin 64) : Rfc1321.t (i + 1) = (calls.get i).ac := by
  have hfloor := floor_abs_sin (reads_ac i)
  rw [Rfc1321.t, show (4294967296 : ℝ) = 2 ^ 32 by norm_num, hfloor, BitVec.ofNat_toNat,
    BitVec.setWidth_eq]

theorem rotateLeft_eq (x : BitVec 32) {n : ℕ} (h : n < 32) : rotateLeft x n = x.rotateLeft n :=
  (BitVec.rotateLeft_eq_rotateLeftAux_of_lt h).symm

theorem body_roundName (r : Fin 4) (a b c d x : BitVec 32) {s : ℕ} (hs : s < 32)
    (ac : BitVec 32) : (roundName r).body a b c d x s ac =
      b + (a + Rfc1321.auxiliary r b c d + x + ac).rotateLeft s := by
  have hbody : (roundName r).body = mix (Rfc1321.auxiliary r) := by
    match r with
    | 0 | 1 | 2 | 3 => rfl
  rw [hbody, mix, rotateLeft_eq _ hs, BitVec.add_comm b, BitVec.add_assoc a, BitVec.add_assoc a,
    BitVec.add_assoc]

theorem register_succ (i : ℕ) (j : Fin 4) : register (i + 1) j = register i (j - 1) := by
  simp only [register, Fin.ext_iff, Fin.sub_def, Fin.ofNat]
  simp
  omega

theorem register_inj (i : ℕ) {j k : Fin 4} : register i j = register i k ↔ j = k := by
  simp only [register, Fin.ext_iff, Fin.sub_def, Fin.ofNat]
  omega

/-- The register a line writes is the `b` of the next one. -/
theorem named_succ (i : ℕ) (regs : Vector (BitVec 32) 4) (w : BitVec 32) :
    named (i + 1) (regs.set (register i 0) w) =
      ⟨(named i regs).d, w, (named i regs).b, (named i regs).c⟩ := by
  simp only [named, register_succ, get_set, Fin.val_inj, register_inj]
  rfl

theorem named_run (x : Vector (BitVec 32) 16) (i : Fin 64) (regs : Vector (BitVec 32) 4) :
    named (i + 1) ((calls.get i).run x regs) = operation x.get i (named i regs) := by
  rw [calls_get i, Call.run]
  dsimp only
  rw [named_succ, body_roundName _ _ _ _ _ _ (rotation_lt i), ← t_eq_ac]
  rfl

theorem word_eq (block : Vector (BitVec 8) 64) (k : Fin 16) :
    Rfc1321.word block k = (md5Decode block).get k := by
  rw [md5Decode, get_ofFn]
  exact append_bytes _ _ _ _

theorem named_md5Transform (state : Vector (BitVec 32) 4) (block : Vector (BitVec 8) 64) :
    named 0 (md5Transform state block) = Rfc1321.process (named 0 state) block := by
  have hword : Rfc1321.word block = (md5Decode block).get := funext (word_eq block)
  have hloop : named 64 (loop 64 (fun i => (calls.get i).run (md5Decode block)) state) =
      loop 64 (operation (Rfc1321.word block)) (named 0 state) := by
    rw [hword]
    refine loop_relates (fun i regs s => named i regs = s) ?_ rfl
    rintro i regs s rfl
    exact named_run _ i regs
  rw [Rfc1321.process, ← hloop]
  simp only [md5Transform, named, get_zipWith]
  rfl

end Hatch.Md5
