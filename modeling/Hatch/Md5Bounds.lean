import Hatch.Md5
import Mathlib.Algebra.GroupWithZero.Nat

/-!
# How far `MD5Update` reads

The test `i + 64 <= inputlen` wraps. The remainder of `i` modulo 64 never changes, so the
sum stays below `2 ^ 32 - 64` plus this remainder; an input at least that long keeps the test
true for ever, and every shorter one is read block by block to less than a block from its end.
-/

namespace Hatch.Md5

def lastCopy (fuel : ℕ) (context : Ctx) (input : List (BitVec 8)) (inputlen : BitVec 32) :
    Except Stop (BitVec 32) := do
  let index := bufferIndex context
  let partlen := 64 - index
  if partlen ≤ inputlen then
    let buffer ← copyIn context.buffer index.toNat input 0 partlen.toNat
    let (i, _) ← blockLoop input inputlen fuel partlen (md5Transform context.state buffer)
    return inputlen - i
  else
    return inputlen

/-- The call returns without a read behind the `inputlen` bytes of its input, and its last
`memcpy` copies less than a block. -/
def Finishes (context : Ctx) (inputlen : BitVec 32) (input : Vector (BitVec 8) inputlen.toNat) :
    Prop :=
  ∃ fuel, (∃ context', md5Update fuel context input.toList inputlen = .ok context') ∧
    ∃ n, lastCopy fuel context input.toList inputlen = .ok n ∧ n < 64

section Loop

variable {input : List (BitVec 8)} {inputlen i : BitVec 32}

/-- Whatever memory stands behind the input, the loop does not come to its end. -/
theorem blockLoop_never (h : 2 ^ 32 - 64 + i.toNat % 64 ≤ inputlen.toNat) (fuel : ℕ)
    (state : Vector (BitVec 32) 4) (r : BitVec 32 × Vector (BitVec 32) 4) :
    blockLoop input inputlen fuel i state ≠ .ok r := by
  induction fuel generalizing i state with
  | zero => exact nofun
  | succ fuel ih =>
      have hadd : (i + 64).toNat = (i.toNat + 64) % 2 ^ 32 := BitVec.toNat_add i 64
      have hle : i + 64 ≤ inputlen := by
        rw [BitVec.le_def, hadd]
        omega
      have hnext : 2 ^ 32 - 64 + (i + 64).toNat % 64 ≤ inputlen.toNat := by
        rw [hadd]
        omega
      rw [blockLoop, if_pos hle]
      cases hread : readBlock input i.toNat with
      | error e => exact nofun
      | ok block => exact ih hnext (md5Transform state block)

theorem blockLoop_ends (h : inputlen.toNat < 2 ^ 32 - 64 + i.toNat % 64)
    (hlen : inputlen.toNat ≤ input.length) (hi : i.toNat ≤ inputlen.toNat) (fuel : ℕ)
    (hfuel : inputlen.toNat - i.toNat < 64 * fuel) (state : Vector (BitVec 32) 4) :
    ∃ i' state', blockLoop input inputlen fuel i state = .ok (i', state') ∧
      i'.toNat ≤ inputlen.toNat ∧ inputlen.toNat < i'.toNat + 64 := by
  induction fuel generalizing i state with
  | zero => omega
  | succ fuel ih =>
      -- the remainder of `i` leaves room for another block below the wrap
      have hadd : (i + 64).toNat = i.toNat + 64 := by
        rw [BitVec.toNat_add]
        change (i.toNat + 64) % 2 ^ 32 = _
        omega
      rw [blockLoop]
      by_cases hle : i + 64 ≤ inputlen
      · have hle' : i.toNat + 64 ≤ inputlen.toNat := by rwa [BitVec.le_def, hadd] at hle
        rw [if_pos hle, readBlock, dif_pos (Nat.le_trans hle' hlen)]
        exact ih (by rw [hadd]; omega) (by rw [hadd]; exact hle') (by rw [hadd]; omega) _
      · rw [if_neg hle]
        rw [BitVec.le_def, hadd] at hle
        exact ⟨i, state, rfl, hi, by omega⟩

end Loop

theorem copyIn_fits (buffer : Vector (BitVec 8) 64) (index : ℕ) (input : List (BitVec 8))
    (i n : ℕ) (hr : i + n ≤ input.length) (hw : index + n ≤ 64) :
    ∃ buffer', copyIn buffer index input i n = .ok buffer' := by
  rw [copyIn, dif_pos hr, dif_pos hw]
  exact ⟨_, rfl⟩

section Update

variable {context : Ctx} {inputlen : BitVec 32} (input : Vector (BitVec 8) inputlen.toNat)

theorem finishes_of_short (h : ¬ 64 - bufferIndex context ≤ inputlen) :
    Finishes context inputlen input := by
  have hlt : inputlen.toNat < 64 - (bufferIndex context).toNat := by
    rw [BitVec.le_def, toNat_sub_bufferIndex] at h
    omega
  have hlen : input.toList.length = inputlen.toNat := Vector.length_toList
  obtain ⟨buffer, hcopy⟩ := copyIn_fits context.buffer (bufferIndex context).toNat input.toList 0
    inputlen.toNat (by omega) (by omega)
  refine ⟨0, ⟨⟨addCount context.count inputlen, context.state, buffer⟩, ?_⟩, inputlen, ?_, ?_⟩
  · rw [md5Update]
    simp only [if_neg h, hcopy]
    rfl
  · rw [lastCopy]
    simp only [if_neg h]
    rfl
  · rw [BitVec.lt_def]
    exact Nat.lt_of_lt_of_le hlt (Nat.sub_le 64 _)

theorem finishes_of_lt (hpart : 64 - bufferIndex context ≤ inputlen)
    (h : inputlen.toNat < 2 ^ 32 - 64 + (64 - (bufferIndex context).toNat) % 64) :
    Finishes context inputlen input := by
  have hlen : input.toList.length = inputlen.toNat := Vector.length_toList
  have hindex := toNat_sub_bufferIndex context
  have hle : (64 - bufferIndex context).toNat ≤ inputlen.toNat := hpart
  have hlt := bufferIndex_lt context
  obtain ⟨block, hcopy⟩ := copyIn_fits context.buffer (bufferIndex context).toNat input.toList 0
    (64 - bufferIndex context).toNat (by omega) (by omega)
  obtain ⟨i, state, hloop, hi, hend⟩ := blockLoop_ends (by rw [hindex]; exact h)
    (Nat.le_of_eq hlen.symm) hle (inputlen.toNat + 1) (by omega)
    (md5Transform context.state block)
  have hsub : (inputlen - i).toNat = inputlen.toNat - i.toNat :=
    BitVec.toNat_sub_of_le hi
  obtain ⟨buffer, hcopy'⟩ := copyIn_fits block 0 input.toList i.toNat (inputlen - i).toNat
    (by omega) (by omega)
  refine ⟨inputlen.toNat + 1, ⟨⟨addCount context.count inputlen, state, buffer⟩, ?_⟩,
    inputlen - i, ?_, ?_⟩
  · rw [md5Update]
    simp only [if_pos hpart, hcopy, hloop, hcopy', bind, Except.bind]
    rfl
  · rw [lastCopy]
    simp only [if_pos hpart, hcopy, hloop, bind, Except.bind]
    rfl
  · rw [BitVec.lt_def, hsub]
    change _ < 64
    omega

theorem not_finishes_of_le
    (h : 2 ^ 32 - 64 + (64 - (bufferIndex context).toNat) % 64 ≤ inputlen.toNat) :
    ¬ Finishes context inputlen input := by
  rintro ⟨fuel, -, n, hcopy, -⟩
  have hindex := toNat_sub_bufferIndex context
  have hpart : 64 - bufferIndex context ≤ inputlen := by
    rw [BitVec.le_def, hindex]
    omega
  rw [lastCopy] at hcopy
  simp only [if_pos hpart] at hcopy
  cases hfirst : copyIn context.buffer (bufferIndex context).toNat input.toList 0
      (64 - bufferIndex context).toNat with
  | error e =>
      rw [hfirst] at hcopy
      cases hcopy
  | ok block =>
      rw [hfirst] at hcopy
      cases hloop : blockLoop input.toList inputlen fuel (64 - bufferIndex context)
          (md5Transform context.state block) with
      | error e =>
          simp only [bind, Except.bind, hloop] at hcopy
          cases hcopy
      | ok r => exact blockLoop_never (by rwa [hindex]) fuel _ r hloop

end Update

/-- `MD5Update` ends inside its input just if the input is shorter than the largest value
that the wrapping sum of the loop test takes. -/
theorem md5Update_finishes_iff (context : Ctx) (inputlen : BitVec 32)
    (input : Vector (BitVec 8) inputlen.toNat) :
    Finishes context inputlen input ↔
      inputlen.toNat < 2 ^ 32 - 64 + (64 - (bufferIndex context).toNat) % 64 := by
  constructor
  · intro h
    rcases Nat.lt_or_ge inputlen.toNat
        (2 ^ 32 - 64 + (64 - (bufferIndex context).toNat) % 64) with hlt | hge
    · exact hlt
    · exact absurd h (not_finishes_of_le input hge)
  · intro h
    by_cases hpart : 64 - bufferIndex context ≤ inputlen
    · exact finishes_of_lt input hpart h
    · exact finishes_of_short input hpart

/-- A new context and an input of `2 ^ 32 - 1` bytes. -/
theorem md5Update_never_finishes :
    ¬ Finishes (md5Init ⟨#v[0, 0], #v[0, 0, 0, 0], Vector.replicate 64 0⟩) 0xFFFFFFFF
      (Vector.replicate _ 0) :=
  not_finishes_of_le _ (by decide)

end Hatch.Md5
