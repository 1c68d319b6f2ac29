import Hatch.DesRoundTrip

/-!
# How long `DES_Decrypt` runs

The loop of `DES_Decrypt` adds 8 to `times`, an `int`, and ends when the sum has reached the
length of the file. The largest value the sum can have is `2 ^ 31 - 8`; a longer file is
decrypted for ever.
-/

namespace Hatch.Des

open BitString

def timesAfter (k : ℕ) : Int := (BitVec.ofNat 32 (8 * k)).toInt

theorem timesAfter_eq {k : ℕ} (h : 8 * k < 2 ^ 31) : timesAfter k = 8 * k := by
  rw [timesAfter, toInt_ofNat_of_lt (by omega)]
  exact_mod_cast rfl

theorem timesAfter_le (k : ℕ) : timesAfter k ≤ 2 ^ 31 - 8 := by
  rw [timesAfter, BitVec.toInt_eq_toNat_cond, BitVec.toNat_ofNat]
  split <;> omega

section Loop

variable (ks : Vector (BitVec 48) 16) {fileLen : Int}

variable (fileLen) in
theorem decryptLoop_step (fuel k : ℕ) (f : InFile) (buf : Vector ElemType 8)
    (out : List ElemType) :
    ∃ f' buf' out' r, decryptLoop (ks.map cells) fileLen (fuel + 1) f buf
        (BitVec.ofNat 32 (8 * k)) out =
      if timesAfter (k + 1) < fileLen then
        decryptLoop (ks.map cells) fileLen fuel f' buf' (BitVec.ofNat 32 (8 * (k + 1))) out'
      else .ok r := by
  rw [decryptLoop, desDecryptBlock_cells, times_succ]
  exact ⟨_, _, _, _, rfl⟩

theorem decryptLoop_continues {fuel k : ℕ} (h : ∀ j < fuel, timesAfter (k + j + 1) < fileLen)
    (f : InFile) (buf : Vector ElemType 8) (out : List ElemType) :
    decryptLoop (ks.map cells) fileLen fuel f buf (BitVec.ofNat 32 (8 * k)) out =
      .error .running := by
  induction fuel generalizing k f buf out with
  | zero => rfl
  | succ fuel ih =>
      obtain ⟨f', buf', out', r, hstep⟩ := decryptLoop_step ks fileLen fuel k f buf out
      rw [hstep, if_pos (h 0 (Nat.succ_pos fuel))]
      apply ih
      intro j hj
      have hnext := h (j + 1) (Nat.succ_lt_succ hj)
      rwa [← Nat.add_assoc, Nat.add_right_comm k j 1] at hnext

theorem decryptLoop_returns {fuel k j : ℕ} (hj : j < fuel) (h : fileLen ≤ timesAfter (k + j + 1))
    (f : InFile) (buf : Vector ElemType 8) (out : List ElemType) :
    ∃ r, decryptLoop (ks.map cells) fileLen fuel f buf (BitVec.ofNat 32 (8 * k)) out = .ok r := by
  induction fuel generalizing k j f buf out with
  | zero => exact absurd hj (Nat.not_lt_zero j)
  | succ fuel ih =>
      obtain ⟨f', buf', out', r, hstep⟩ := decryptLoop_step ks fileLen fuel k f buf out
      rw [hstep]
      by_cases hlt : timesAfter (k + 1) < fileLen
      · rw [if_pos hlt]
        cases j with
        | zero =>
            rw [Nat.add_zero] at h
            omega
        | succ j =>
            apply ih (Nat.lt_of_succ_lt_succ hj)
            rwa [← Nat.add_assoc, Nat.add_right_comm k j 1] at h
      · rw [if_neg hlt]
        exact ⟨r, rfl⟩

end Loop

def decryptLoopOf (locals : Locals) (content : List ElemType) (key : Vector ElemType 8)
    (fuel : ℕ) : Except Stop (Vector ElemType 8 × List ElemType) :=
  decryptLoop (desMakeSubKeys (char8ToBit64 key) locals.subKeys) content.length fuel
    ⟨content, false⟩ locals.cipherBlock 0 []

theorem desDecrypt_eq_loop (fuel : ℕ) (locals : Locals) (content : List ElemType)
    (key : Vector ElemType 8) :
    desDecrypt fuel locals (some content) key true = (do
      let r ← decryptLoopOf locals content key fuel
      let bytes ← lastBytes locals.count r.1
      return (okCode, some (r.2 ++ bytes))) := rfl

/-- The loop is still running before `n` iterations and has returned after them. -/
def EndsAfter (locals : Locals) (content : List ElemType) (key : Vector ElemType 8) (n : ℕ) :
    Prop :=
  ∀ fuel, if fuel < n then decryptLoopOf locals content key fuel = .error .running
    else ∃ r, decryptLoopOf locals content key fuel = .ok r

theorem endsAfter_of_le (locals : Locals) {content : List ElemType} (key : Vector ElemType 8)
    (h : content.length ≤ 2 ^ 31 - 8) :
    EndsAfter locals content key (max 1 ((content.length + 7) / 8)) := by
  intro fuel
  rw [decryptLoopOf, desMakeSubKeys_fileKeys]
  split
  · rename_i hfuel
    apply decryptLoop_continues (k := 0)
    intro j hj
    rw [timesAfter_eq (by omega)]
    omega
  · rename_i hfuel
    refine decryptLoop_returns (fileKeys key) (k := 0)
      (j := max 1 ((content.length + 7) / 8) - 1) (by omega) ?_ _ _ _
    rw [timesAfter_eq (by omega)]
    omega

theorem decryptLoopOf_running (locals : Locals) {content : List ElemType} (key : Vector ElemType 8)
    (h : 2 ^ 31 - 8 < content.length) (fuel : ℕ) :
    decryptLoopOf locals content key fuel = .error .running := by
  rw [decryptLoopOf, desMakeSubKeys_fileKeys]
  apply decryptLoop_continues (k := 0)
  intro j hj
  have hle := timesAfter_le (0 + j + 1)
  omega

theorem not_endsAfter (locals : Locals) {content : List ElemType} (key : Vector ElemType 8)
    (h : 2 ^ 31 - 8 < content.length) (n : ℕ) : ¬ EndsAfter locals content key n := by
  intro hends
  have hafter := hends n
  rw [if_neg (Nat.lt_irrefl n), decryptLoopOf_running locals key h] at hafter
  obtain ⟨r, hr⟩ := hafter
  cases hr

/-- The loop ends, and after one iteration for each block, just if the file is not longer than
the largest value of `times`. -/
theorem desDecrypt_endsAfter_iff (locals : Locals) (content : List ElemType)
    (key : Vector ElemType 8) :
    EndsAfter locals content key (max 1 ((content.length + 7) / 8)) ↔
      content.length ≤ 2 ^ 31 - 8 := by
  constructor
  · intro hends
    by_contra hlong
    exact not_endsAfter locals key (Nat.not_le.mp hlong) _ hends
  · exact endsAfter_of_le locals key

def zeroLocals : Locals :=
  ⟨0, Vector.replicate 8 0, Vector.replicate 8 0, Vector.replicate 16 (Vector.replicate 48 0)⟩

/-- The loop does not end after the `2 ^ 28` blocks of a file of `2 ^ 31 - 7` zeros, nor ever. -/
theorem desDecrypt_runs_on :
    ¬ EndsAfter zeroLocals (List.replicate (2 ^ 31 - 7) 0) (Vector.replicate 8 0) (2 ^ 28) ∧
      ∀ fuel, desDecrypt fuel zeroLocals (some (List.replicate (2 ^ 31 - 7) 0))
        (Vector.replicate 8 0) true = .error .running := by
  have hlong : 2 ^ 31 - 8 < (List.replicate (2 ^ 31 - 7) (0 : ElemType)).length := by
    rw [List.length_replicate]
    decide
  refine ⟨not_endsAfter _ _ hlong _, ?_⟩
  intro fuel
  rw [desDecrypt_eq_loop, decryptLoopOf_running _ _ hlong]
  rfl

end Hatch.Des
