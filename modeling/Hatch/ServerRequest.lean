import Hatch.ByteLayout
import Mathlib.Algebra.GroupWithZero.Nat
import Mathlib.Data.List.Infix

/-!
# The buffer of a server request

`CServerRequest::InputBuffer` appends to a buffer that grows by blocks of 1024 bytes. The
capacity asked for is a mask expression: `~BUFFER_BLOCK * BUFFER_BLOCK` clears the ten low
bits of the sum and bit 20 as well, so a request that grows while that bit is set gets a
megabyte too little.
-/

namespace Hatch.Dir

open ByteLayout

inductive Fault where
  | memcpyOutside
  | badArrayLength
  deriving DecidableEq, Repr

/-- The allocated bytes are none while `pRequestBuffer` is null. -/
structure CServerRequest where
  buffernLength : ℕ
  pRequestBuffer : Bytes
  bufferCap : ℕ
  deriving DecidableEq, Repr

def CServerRequest.new : CServerRequest := ⟨0, [], 0⟩

def bufferBlock : BitVec 32 := 1024

/-- The initial value of `tmpCap`: a sum of type `long` with an `int` mask, kept in an `int`. -/
def tmpCap (total : Int) : Int :=
  ((BitVec.ofInt 64 (total + bufferBlock.toInt) &&&
    (~~~bufferBlock * bufferBlock).signExtend 64).setWidth 32).toInt

/-- A negative size is a huge one. -/
def memcpy (dst : Bytes) (off : ℕ) (src : Bytes) (n : Int) : Except Fault Bytes :=
  if 0 ≤ n ∧ off + n ≤ dst.length ∧ n ≤ src.length then .ok (patch dst off (src.take n.toNat))
  else .error .memcpyOutside

def allocate (r : CServerRequest) : CServerRequest :=
  if r.bufferCap = 0 then
    { r with pRequestBuffer := List.replicate bufferBlock.toNat 0, bufferCap := bufferBlock.toNat }
  else r

def grow (r : CServerRequest) (length : Int) : Except Fault CServerRequest :=
  if r.bufferCap ≤ r.buffernLength + length then
    let cap := tmpCap (r.buffernLength + length)
    if cap < 0 then .error .badArrayLength
    else do
      let tmp ← memcpy (List.replicate cap.toNat 0) 0 r.pRequestBuffer r.buffernLength
      return { r with bufferCap := cap.toNat, pRequestBuffer := tmp }
  else .ok r

/-- `InputBuffer`; a null pointer is `none`. -/
def inputBuffer (r : CServerRequest) (pValue : Option Bytes) (length : Int) :
    Except Fault (Int × CServerRequest) :=
  match pValue with
  | none => .ok (0, r)
  | some value => do
      let r ← grow (allocate r) length
      let buffer ← memcpy r.pRequestBuffer r.buffernLength value length
      return (length, { r with
        pRequestBuffer := buffer, buffernLength := (r.buffernLength + length).toNat })

structure Input where
  value : Option Bytes
  length : ℕ
  length_le : ∀ v ∈ value, length ≤ v.length

def Input.bytes (i : Input) : Bytes := (i.value.getD []).take i.length

def inputAll (r : CServerRequest) (inputs : List Input) : Except Fault CServerRequest :=
  inputs.foldlM (fun r i => (inputBuffer r i.value i.length).map Prod.snd) r

/-- The request holds the bytes `data` inside its allocated buffer. -/
structure Holds (r : CServerRequest) (data : Bytes) : Prop where
  length : r.buffernLength = data.length
  le_cap : r.buffernLength ≤ r.bufferCap
  size : r.pRequestBuffer.length = r.bufferCap
  content : r.pRequestBuffer.take r.buffernLength = data

/-- Bit 20 of the sum that the capacity is computed from. -/
def LosesMegabyte (total : ℕ) : Prop := (total + 1024) / 2 ^ 20 % 2 = 1

instance (total : ℕ) : Decidable (LosesMegabyte total) :=
  inferInstanceAs (Decidable ((total + 1024) / 2 ^ 20 % 2 = 1))

theorem and_mask {x : ℕ} (h : x < 2 ^ 64) :
    x &&& 0xFFFFFFFFFFEFFC00 = x / 2 ^ 21 * 2 ^ 21 + x / 2 ^ 10 % 2 ^ 10 * 2 ^ 10 := by
  have hmask : ∀ i < 64,
      (0xFFFFFFFFFFEFFC00 : ℕ).testBit i = (decide (10 ≤ i) && decide (i ≠ 20)) := by
    decide
  have hhigh : ∀ i, 64 ≤ i → x.testBit i = false := fun i hi =>
    Nat.testBit_lt_two_pow (h.trans_le (Nat.pow_le_pow_right (by omega) hi))
  have hlow : (x >>> 10 % 2 ^ 10) <<< 10 < 2 ^ 21 := by
    rw [Nat.shiftLeft_eq]
    omega
  have hsum : x / 2 ^ 21 * 2 ^ 21 + x / 2 ^ 10 % 2 ^ 10 * 2 ^ 10 =
      (x >>> 21) <<< 21 ||| (x >>> 10 % 2 ^ 10) <<< 10 := by
    rw [← Nat.shiftLeft_add_eq_or_of_lt hlow, Nat.shiftLeft_eq, Nat.shiftLeft_eq,
      Nat.shiftRight_eq_div_pow, Nat.shiftRight_eq_div_pow]
  rw [hsum]
  apply Nat.eq_of_testBit_eq
  intro i
  rw [Nat.testBit_and, Nat.testBit_or, Nat.testBit_shiftLeft, Nat.testBit_shiftLeft,
    Nat.testBit_shiftRight, Nat.testBit_mod_two_pow, Nat.testBit_shiftRight]
  by_cases hi : i < 64
  · rw [hmask i hi]
    grind
  · rw [hhigh i (by omega)]
    grind

theorem tmpCap_eq {t : ℕ} (h : t < 2 ^ 31 - 1024) :
    tmpCap t = ((t + 1024) / 2 ^ 21 * 2 ^ 21 + (t + 1024) / 2 ^ 10 % 2 ^ 10 * 2 ^ 10 : ℕ) := by
  have hsum : BitVec.ofInt 64 ((t : Int) + bufferBlock.toInt) = BitVec.ofNat 64 (t + 1024) := rfl
  have hmask : ((~~~bufferBlock * bufferBlock).signExtend 64).toNat = 0xFFFFFFFFFFEFFC00 := by
    decide
  have hlt : (t + 1024) / 2 ^ 21 * 2 ^ 21 + (t + 1024) / 2 ^ 10 % 2 ^ 10 * 2 ^ 10 < 2 ^ 31 := by
    omega
  rw [tmpCap, hsum, BitVec.toInt_eq_toNat_of_lt]
  · rw [BitVec.toNat_setWidth, BitVec.toNat_and, hmask, BitVec.toNat_ofNat,
      Nat.mod_eq_of_lt (by omega : t + 1024 < 2 ^ 64), and_mask (by omega),
      Nat.mod_eq_of_lt (by omega)]
  · rw [BitVec.toNat_setWidth, BitVec.toNat_and, hmask, BitVec.toNat_ofNat,
      Nat.mod_eq_of_lt (by omega : t + 1024 < 2 ^ 64), and_mask (by omega),
      Nat.mod_eq_of_lt (by omega)]
    omega

theorem tmpCap_of_not_loses {t : ℕ} (h : t < 2 ^ 31 - 1024) (hl : ¬ LosesMegabyte t) :
    tmpCap t = ((t / 1024 + 1) * 1024 : ℕ) := by
  unfold LosesMegabyte at hl
  have hcap : (t + 1024) / 2 ^ 21 * 2 ^ 21 + (t + 1024) / 2 ^ 10 % 2 ^ 10 * 2 ^ 10 =
      (t / 1024 + 1) * 1024 := by omega
  rw [tmpCap_eq h, hcap]

theorem tmpCap_of_loses {t : ℕ} (h : t < 2 ^ 31 - 1024) (hl : LosesMegabyte t) :
    ∃ cap : ℕ, tmpCap t = cap ∧ cap < t := by
  refine ⟨_, tmpCap_eq h, ?_⟩
  unfold LosesMegabyte at hl
  omega

theorem memcpy_inside {dst : Bytes} (off : ℕ) {src : Bytes} {n : ℕ} (hd : off + n ≤ dst.length)
    (hs : n ≤ src.length) : memcpy dst off src n = .ok (patch dst off (src.take n)) := by
  rw [memcpy, if_pos ⟨by omega, by omega, by omega⟩, Int.toNat_natCast]

theorem memcpy_outside {dst src : Bytes} {off n : ℕ} (hd : dst.length < off + n) :
    memcpy dst off src n = .error .memcpyOutside := by
  rw [memcpy, if_neg (by omega)]

/-- The capacity is the least number of blocks that leaves a free byte. -/
def InBlocks (r : CServerRequest) : Prop := r.bufferCap = (r.buffernLength / 1024 + 1) * 1024

theorem Holds.allocate {r : CServerRequest} {data : Bytes} (h : Holds r data)
    (hc : r.bufferCap = 0 ∨ InBlocks r) : Holds (allocate r) data ∧ InBlocks (allocate r) := by
  unfold Dir.allocate
  split
  · rename_i hz
    have hlen : r.buffernLength = 0 := by
      have := h.le_cap
      omega
    have hdata : data = [] := List.eq_nil_of_length_eq_zero (h.length.symm.trans hlen)
    refine ⟨⟨h.length, hlen.le.trans (Nat.zero_le _), List.length_replicate, ?_⟩, ?_⟩
    · simp only [hlen, hdata, List.take_zero]
    · simp only [InBlocks, hlen]
      rfl
  · rename_i hz
    exact ⟨h, hc.resolve_left hz⟩

/-- A request that keeps bit 20 clear grows into just enough blocks. -/
theorem Holds.grow {r : CServerRequest} {data : Bytes} (h : Holds r data) (hb : InBlocks r) {l : ℕ}
    (ht : r.buffernLength + l < 2 ^ 31 - 1024) (hl : ¬ LosesMegabyte (r.buffernLength + l)) :
    ∃ r', grow r l = .ok r' ∧ Holds r' data ∧
      r'.bufferCap = ((r.buffernLength + l) / 1024 + 1) * 1024 := by
  unfold Dir.grow
  have hcast : (r.buffernLength : Int) + l = (r.buffernLength + l : ℕ) := rfl
  rw [hcast, tmpCap_of_not_loses ht hl]
  by_cases hc : r.bufferCap ≤ r.buffernLength + l
  · have hsrc : r.buffernLength ≤ r.pRequestBuffer.length := h.size ▸ h.le_cap
    have hcopy := memcpy_inside 0 (n := r.buffernLength)
      (show 0 + r.buffernLength ≤
        (List.replicate (((r.buffernLength + l) / 1024 + 1) * 1024) (0 : UInt8)).length by
          rw [List.length_replicate]; omega) hsrc
    rw [if_pos (Int.ofNat_le.mpr hc), if_neg (by omega), Int.toNat_natCast, hcopy]
    refine ⟨_, rfl, ⟨h.length, by simp only; omega, ?_, ?_⟩, rfl⟩
    · rw [length_patch, List.length_replicate]
      rw [List.length_take, List.length_replicate]
      omega
    · simp only [patch, List.take_zero, List.nil_append]
      rw [List.take_left' (by rw [List.length_take]; omega)]
      exact h.content
  · unfold InBlocks at hb
    have hdiv : (r.buffernLength + l) / 1024 = r.buffernLength / 1024 := by omega
    exact ⟨r, if_neg (fun h => hc (Int.ofNat_le.mp h)), h, by rw [hdiv, hb]⟩

/-- A request that sets bit 20 grows, and the new buffer is too small for it. -/
theorem grow_of_loses {r : CServerRequest} (hb : InBlocks r) {l : ℕ}
    (ht : r.buffernLength + l < 2 ^ 31 - 1024) (hr : ¬ LosesMegabyte r.buffernLength)
    (hl : LosesMegabyte (r.buffernLength + l)) :
    grow r l = .error .memcpyOutside ∨ ∃ r', grow r l = .ok r' ∧
      r'.buffernLength = r.buffernLength ∧ r'.pRequestBuffer.length < r.buffernLength + l := by
  unfold grow
  have hcast : (r.buffernLength : Int) + l = (r.buffernLength + l : ℕ) := rfl
  obtain ⟨cap, hcap, hlt⟩ := tmpCap_of_loses ht hl
  have hc : (r.bufferCap : Int) ≤ (r.buffernLength + l : ℕ) := by
    unfold InBlocks at hb
    unfold LosesMegabyte at hr hl
    omega
  rw [hcast, hcap, if_pos hc, if_neg (by omega), Int.toNat_natCast]
  by_cases hn : r.buffernLength ≤ cap ∧ r.buffernLength ≤ r.pRequestBuffer.length
  · rw [memcpy_inside _ (by rw [List.length_replicate]; omega) hn.2]
    refine .inr ⟨_, rfl, rfl, ?_⟩
    rw [length_patch, List.length_replicate]
    · exact hlt
    · rw [List.length_take, List.length_replicate]
      omega
  · rw [memcpy, if_neg (by rw [List.length_replicate]; omega)]
    exact .inl rfl

/-- What holds between the calls of a run that keeps bit 20 clear. -/
structure Steady (r : CServerRequest) (data : Bytes) : Prop extends Holds r data where
  cap : r.bufferCap = 0 ∨ InBlocks r

theorem Steady.new : Steady .new [] := ⟨⟨rfl, le_rfl, rfl, rfl⟩, .inl rfl⟩

theorem Steady.inputBuffer {r : CServerRequest} {data : Bytes} (h : Steady r data) (i : Input)
    (ht : data.length + i.bytes.length < 2 ^ 31 - 1024)
    (hl : ¬ LosesMegabyte (data.length + i.bytes.length)) :
    ∃ n r', inputBuffer r i.value i.length = .ok (n, r') ∧ Steady r' (data ++ i.bytes) := by
  obtain ⟨value, length, length_le⟩ := i
  cases value with
  | none =>
      have hnil : Input.bytes ⟨none, length, length_le⟩ = [] := List.take_nil
      rw [hnil, List.append_nil]
      exact ⟨0, r, rfl, h⟩
  | some value =>
      have hv : length ≤ value.length := length_le value rfl
      have hbytes : Input.bytes ⟨some value, length, length_le⟩ = value.take length := rfl
      have hlen : (value.take length).length = length := List.length_take_of_le hv
      obtain ⟨ha, hb⟩ := h.toHolds.allocate h.cap
      rw [hbytes, hlen, ← ha.length] at ht hl
      obtain ⟨r', hg, hr', hcap⟩ := ha.grow hb ht hl
      have hn : r'.buffernLength = (allocate r).buffernLength := hr'.length.trans ha.length.symm
      have hfit : r'.buffernLength + length ≤ r'.pRequestBuffer.length := by
        rw [hr'.size, hcap, hn]
        omega
      have hcopy := memcpy_inside _ hfit hv
      have hpatch : r'.buffernLength + (value.take length).length ≤ r'.pRequestBuffer.length := by
        rwa [hlen]
      have hrun : Dir.inputBuffer r (some value) length = .ok (length, { r' with
          pRequestBuffer := patch r'.pRequestBuffer r'.buffernLength (value.take length)
          buffernLength := r'.buffernLength + length }) := by
        simp only [Dir.inputBuffer, hg, bind, Except.bind, hcopy]
        rfl
      refine ⟨_, _, hrun, ⟨⟨?_, ?_, ?_, ?_⟩, ?_⟩⟩
      · rw [hbytes, List.length_append, hlen, ← hr'.length]
      · rw [← hr'.size]
        exact hfit
      · rw [length_patch hpatch]
        exact hr'.size
      · rw [hbytes, patch, hr'.content, List.take_left']
        rw [List.length_append, hlen, hr'.length]
      · exact .inr (by rw [InBlocks, hcap, hn])

theorem Steady.inputBuffer_faults {r : CServerRequest} {data : Bytes} (h : Steady r data)
    (i : Input) (ht : data.length + i.bytes.length < 2 ^ 31 - 1024)
    (hd : ¬ LosesMegabyte data.length) (hl : LosesMegabyte (data.length + i.bytes.length)) :
    Dir.inputBuffer r i.value i.length = .error .memcpyOutside := by
  obtain ⟨value, length, length_le⟩ := i
  cases value with
  | none =>
      rw [show Input.bytes ⟨none, length, length_le⟩ = [] from List.take_nil] at hl
      exact absurd hl hd
  | some value =>
      have hv : length ≤ value.length := length_le value rfl
      have hbytes : (Input.bytes ⟨some value, length, length_le⟩).length = length :=
        List.length_take_of_le hv
      obtain ⟨ha, hb⟩ := h.toHolds.allocate h.cap
      rw [hbytes, ← ha.length] at ht hl
      rw [← ha.length] at hd
      rcases grow_of_loses hb ht hd hl with hg | ⟨r', hg, hn, hsize⟩
      · simp only [Dir.inputBuffer, hg, bind, Except.bind]
      · rw [← hn] at hsize
        simp only [Dir.inputBuffer, hg, bind, Except.bind, memcpy_outside hsize]

theorem inputAll_append (r : CServerRequest) (inputs : List Input) (i : Input) :
    inputAll r (inputs ++ [i]) = (inputAll r inputs).bind fun r =>
      (inputBuffer r i.value i.length).map Prod.snd := by
  simp only [inputAll, List.foldlM_append, List.foldlM_cons, List.foldlM_nil, bind_pure]
  rfl

def inputBytes (inputs : List Input) : Bytes := inputs.flatMap Input.bytes

theorem inputBytes_append (inputs : List Input) (i : Input) :
    inputBytes (inputs ++ [i]) = inputBytes inputs ++ i.bytes := by
  simp [inputBytes]

theorem length_inputBytes_le {made inputs : List Input} (h : made <+: inputs) :
    (inputBytes made).length ≤ (inputBytes inputs).length := by
  obtain ⟨rest, rfl⟩ := h
  rw [inputBytes, inputBytes, List.flatMap_append, List.length_append]
  omega

/-- No total of the calls sets bit 20. -/
def KeepsMegabyte (inputs : List Input) : Prop :=
  ∀ made, made <+: inputs → ¬ LosesMegabyte (inputBytes made).length

theorem inputAll_steady (inputs : List Input)
    (ht : (inputBytes inputs).length < 2 ^ 31 - 1024)
    (hk : KeepsMegabyte inputs) :
    ∃ r, inputAll .new inputs = .ok r ∧ Steady r (inputBytes inputs) := by
  induction inputs using List.reverseRecOn with
  | nil => exact ⟨.new, rfl, .new⟩
  | append_singleton inputs i ih =>
      have hl := hk _ (List.prefix_refl _)
      rw [inputBytes_append, List.length_append] at ht hl
      obtain ⟨r, hr, hs⟩ := ih (by omega) fun made hm => hk made (hm.trans (List.prefix_append _ _))
      obtain ⟨n, r', hi, hs'⟩ := hs.inputBuffer i ht hl
      refine ⟨r', ?_, inputBytes_append inputs i ▸ hs'⟩
      rw [inputAll_append, hr, Except.bind, hi, Except.map]

/-- As long as the total stays below 2^31 - 1024, every call of a sequence leaves the
concatenation of all inputs in the buffer just if bit 20 of no total plus 1024 is set. -/
theorem inputAll_holds_iff (inputs : List Input)
    (ht : (inputBytes inputs).length < 2 ^ 31 - 1024) :
    (∀ made, made <+: inputs → ∃ r, inputAll .new made = .ok r ∧ Holds r (inputBytes made)) ↔
      ∀ made, made <+: inputs → ((inputBytes made).length + 1024) / 2 ^ 20 % 2 = 0 := by
  constructor
  · intro h made hm
    -- by induction on the calls made: the first total that sets bit 20 faults
    suffices hk : KeepsMegabyte made by
      have := hk made (List.prefix_refl _)
      unfold LosesMegabyte at this
      omega
    induction made using List.reverseRecOn with
    | nil =>
        intro made hm
        rw [List.prefix_nil.mp hm]
        decide
    | append_singleton made i ih =>
        have hk := ih ((List.prefix_append _ _).trans hm)
        have hlen := length_inputBytes_le hm
        intro pre hpre
        rcases List.prefix_concat_iff.mp hpre with rfl | hpre
        · intro hl
          rw [inputBytes_append, List.length_append] at hlen hl
          obtain ⟨r, hr, hs⟩ := inputAll_steady made (by omega) hk
          have hf := hs.inputBuffer_faults i (by omega) (hk _ (List.prefix_refl _)) hl
          obtain ⟨r', hr', -⟩ := h _ hm
          rw [inputAll_append, hr, Except.bind, hf] at hr'
          cases hr'
        · exact hk pre hpre
  · intro h made hm
    have hlen := length_inputBytes_le hm
    obtain ⟨r, hr, hs⟩ := inputAll_steady made (by omega) fun pre hpre => by
      have := h pre (hpre.trans hm)
      unfold LosesMegabyte
      omega
    exact ⟨r, hr, hs.toHolds⟩

def zeros (n : ℕ) : Input where
  value := some (List.replicate n 0)
  length := n
  length_le := by
    rintro v ⟨⟩
    exact List.length_replicate.ge

theorem length_bytes_zeros (n : ℕ) : (zeros n).bytes.length = n := by
  simp [zeros, Input.bytes]

/-- Two calls of 8024 bytes, as many as one `recv` can deliver. -/
theorem inputAll_holds_two_reads :
    (inputBytes [zeros 8024, zeros 8024]).length = 16048 ∧
      ∀ made, made <+: [zeros 8024, zeros 8024] →
        ∃ r, inputAll .new made = .ok r ∧ Holds r (inputBytes made) := by
  have hlen : (inputBytes [zeros 8024, zeros 8024]).length = 16048 := by
    simp [inputBytes, length_bytes_zeros]
  refine ⟨hlen, ?_⟩
  refine (inputAll_holds_iff [zeros 8024, zeros 8024] (by omega)).mpr fun made hm => ?_
  have hle := length_inputBytes_le hm
  omega

/-- One call that brings a request to 1024 bytes below a megabyte gets a buffer of no bytes. -/
theorem inputBuffer_overflows :
    (inputBytes [zeros 1047552]).length < 2 ^ 31 - 1024 ∧ tmpCap 1047552 = 0 ∧
      inputAll .new [zeros 1047552] = .error .memcpyOutside := by
  have hlen := length_bytes_zeros 1047552
  refine ⟨by simp [inputBytes, hlen], tmpCap_eq (t := 1047552) (by decide), ?_⟩
  have hf := Steady.new.inputBuffer_faults (zeros 1047552) (by rw [hlen]; decide) (by decide)
    (by rw [hlen]; decide)
  exact congrArg (fun r => (r.map Prod.snd).bind pure) hf

end Hatch.Dir
