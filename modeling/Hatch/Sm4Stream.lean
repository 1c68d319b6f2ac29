import Hatch.BlockStream
import Hatch.Sm4Block

/-!
# `encodeSMS4` and `decodeSMS4` on byte arrays

The two methods apply the cipher to every full block and leave the bytes behind the last
one zero in their result. Where the input is so long that `k + 16` wraps, the copy of the
next block throws. The round trip is therefore exact for short enough arrays whose partial
last block is zero.
-/

namespace Hatch.Sm4

open BitString BlockStream Java

theorem arraycopy_cell (before : List Byte) (b : Vector Byte 16) (after : List Byte) :
    arraycopy (before ++ (b.toList ++ after)) before.length (List.replicate 16 0) 0 16 =
      .ok b.toList := by
  have hb : b.toList.length = 16 := Vector.length_toList
  rw [arraycopy, if_pos (by simp), List.drop_left, List.take_left' hb]
  simp

section Blockwise

variable {crypt16 : List Byte → Except Throwable (List Byte)} {f : Vector Byte 16 → Vector Byte 16}
  (hf : ∀ b : Vector Byte 16, crypt16 b.toList = .ok (f b).toList)

include hf in
theorem blockwise_block (before written : List Byte) (b : Vector Byte 16) (after : List Byte)
    (hwritten : written.length = before.length)
    (hlen : (before ++ (b.toList ++ after)).length < 2 ^ 31) (n : ℕ) :
    blockwise crypt16 (before ++ (b.toList ++ after)) before.length
        (written ++ List.replicate (16 + n) 0) =
      blockwise crypt16 (before ++ (b.toList ++ after)) (before.length + 16)
        (written ++ (f b).toList ++ List.replicate n 0) := by
  have hb : b.toList.length = 16 := Vector.length_toList
  have hle : before.length + 16 ≤ (before ++ (b.toList ++ after)).length := by
    simp
  have hcopy := arraycopy_result written (f b) n
  rw [hwritten] at hcopy
  rw [blockwise, toInt_ofNat_of_lt (by omega), if_pos (by exact_mod_cast hle), if_pos hle,
    arraycopy_cell]
  simp only [bind, Except.bind, hf]
  rw [hcopy]

include hf in
/-- The loop reaches the end of any number of blocks. -/
theorem blockwise_blocks (bs : List (Vector Byte 16)) (before written r : List Byte)
    (hwritten : written.length = before.length)
    (hlen : (before ++ (join bs ++ r)).length < 2 ^ 31) :
    blockwise crypt16 (before ++ (join bs ++ r)) before.length
        (written ++ List.replicate (16 * bs.length + r.length) 0) =
      blockwise crypt16 (before ++ (join bs ++ r)) (before.length + 16 * bs.length)
        (written ++ join (bs.map f) ++ List.replicate r.length 0) := by
  induction bs generalizing before written with
  | nil => simp
  | cons b bs ih =>
      have hb : b.toList.length = 16 := Vector.length_toList
      have hfb : (f b).toList.length = 16 := Vector.length_toList
      have hcount : 16 * (b :: bs).length + r.length = 16 + (16 * bs.length + r.length) := by
        rw [List.length_cons]
        omega
      have hrest := ih (before ++ b.toList) (written ++ (f b).toList)
        (by rw [List.length_append, List.length_append, hb, hfb, hwritten])
        (by simpa [List.append_assoc] using hlen)
      rw [join_cons, List.append_assoc] at hlen ⊢
      rw [hcount, blockwise_block hf before written b (join bs ++ r) hwritten hlen]
      rw [List.append_assoc, List.length_append, hb] at hrest
      rw [hrest, List.map_cons, join_cons, List.length_cons, ← List.append_assoc written]
      congr 1
      omega

include hf in
theorem blockwise_eq (bs : List (Vector Byte 16)) (r : List Byte) (hr : r.length < 16)
    (hlen : (join bs ++ r).length < 2 ^ 31) :
    blockwise crypt16 (join bs ++ r) 0 (List.replicate (join bs ++ r).length 0) =
      if (join bs ++ r).length < 2 ^ 31 - 16 then
        .ok (join (bs.map f) ++ List.replicate r.length 0)
      else .error .indexOutOfBounds := by
  have hrun := blockwise_blocks hf bs [] [] r rfl hlen
  simp only [List.nil_append, List.length_nil, Nat.zero_add] at hrun
  have hjoin : (join bs ++ r).length = 16 * bs.length + r.length := by simp
  have hend : ¬ 16 * bs.length + 16 ≤ (join bs ++ r).length := by omega
  rw [hjoin] at hlen ⊢
  rw [hrun, blockwise]
  by_cases hshort : 16 * bs.length + r.length < 2 ^ 31 - 16
  · have hexit : ¬ (BitVec.ofNat 32 (16 * bs.length + 16)).toInt ≤ (join bs ++ r).length := by
      rw [toInt_ofNat_of_lt (by omega)]
      exact_mod_cast hend
    rw [if_neg hexit, if_pos hshort]
  · -- The sum is `2 ^ 31`, which is the least `int`.
    have hwrap : (BitVec.ofNat 32 (16 * bs.length + 16)).toInt ≤ (join bs ++ r).length := by
      have hsum : 16 * bs.length + 16 = 2 ^ 31 := by omega
      rw [hsum]
      exact Int.le_trans (by decide) (Int.natCast_nonneg _)
    rw [if_pos hwrap, if_neg hend, if_neg hshort]

end Blockwise

theorem encodeSMS4_eq (key : Vector Byte 16) (bs : List (Vector Byte 16)) {r : List Byte}
    (hr : r.length < 16) (hlen : (join bs ++ r).length < 2 ^ 31) :
    encodeSMS4 (join bs ++ r) key =
      if (join bs ++ r).length < 2 ^ 31 - 16 then
        .ok (join (bs.map (Sm4Standard.encipher key)) ++ List.replicate r.length 0)
      else .error .indexOutOfBounds :=
  blockwise_eq (encode16_eq key) bs r hr hlen

theorem decodeSMS4_eq (key : Vector Byte 16) (bs : List (Vector Byte 16)) {r : List Byte}
    (hr : r.length < 16) (hlen : (join bs ++ r).length < 2 ^ 31) :
    decodeSMS4 (join bs ++ r) key =
      if (join bs ++ r).length < 2 ^ 31 - 16 then
        .ok (join (bs.map (Sm4Standard.decipher key)) ++ List.replicate r.length 0)
      else .error .indexOutOfBounds :=
  blockwise_eq (decode16_eq key) bs r hr hlen

/-! ### One call for all blocks -/

theorem sms4Loop_blocks (rk : Vector (BitVec 32) 32) (bs : List (Vector Byte 16))
    (before written : List Byte) {r : List Byte} (hr : r.length < 16)
    (hwritten : written.length = before.length) :
    sms4Loop (before ++ (join bs ++ r)) rk (16 * bs.length + r.length) before.length
        (written ++ List.replicate (16 * bs.length + r.length) 0) =
      .ok (written ++ join (bs.map (sms4Crypt · rk)) ++ List.replicate r.length 0) := by
  induction bs generalizing before written with
  | nil =>
      rw [sms4Loop, if_neg (by simpa using hr)]
      simp
  | cons b bs ih =>
      have hb : b.toList.length = 16 := Vector.length_toList
      have hcount : 16 * (b :: bs).length + r.length = 16 + (16 * bs.length + r.length) := by
        rw [List.length_cons]
        omega
      have hrest := ih (before ++ b.toList) (written ++ (sms4Crypt b rk).toList)
        (by rw [List.length_append, List.length_append, Vector.length_toList, hb, hwritten])
      rw [List.append_assoc, List.length_append, hb] at hrest
      rw [join_cons, List.append_assoc, hcount, sms4Loop_block rk before written b _ hwritten,
        hrest, List.map_cons, join_cons, ← List.append_assoc written]

/-- A call of `sms4` for the whole array, with the round keys of its flag. -/
theorem sms4_eq (key : Vector Byte 16) (bs : List (Vector Byte 16)) {r : List Byte}
    (hr : r.length < 16) (cryptFlag : BitVec 32) :
    sms4 (join bs ++ r) (join bs ++ r).length key (List.replicate (join bs ++ r).length 0)
        cryptFlag =
      .ok (join (bs.map (sms4Crypt · (sms4KeyExt key (Vector.replicate 32 0) cryptFlag))) ++
        List.replicate r.length 0) := by
  have hlen : (join bs ++ r).length = 16 * bs.length + r.length := by simp
  have hrun := sms4Loop_blocks (sms4KeyExt key (Vector.replicate 32 0) cryptFlag) bs [] [] hr rfl
  rw [sms4, hlen]
  exact hrun

theorem sms4_encrypt (key : Vector Byte 16) (bs : List (Vector Byte 16)) {r : List Byte}
    (hr : r.length < 16) :
    sms4 (join bs ++ r) (join bs ++ r).length key (List.replicate (join bs ++ r).length 0)
        encryptFlag =
      .ok (join (bs.map (Sm4Standard.encipher key)) ++ List.replicate r.length 0) := by
  rw [sms4_eq key bs hr]
  simp only [sms4Crypt_encrypt]

theorem sms4_decrypt (key : Vector Byte 16) (bs : List (Vector Byte 16)) {r : List Byte}
    (hr : r.length < 16) :
    sms4 (join bs ++ r) (join bs ++ r).length key (List.replicate (join bs ++ r).length 0)
        decryptFlag =
      .ok (join (bs.map (Sm4Standard.decipher key)) ++ List.replicate r.length 0) := by
  rw [sms4_eq key bs hr]
  simp only [sms4Crypt_decrypt]

def sms4Whole (p : List Byte) (key : Vector Byte 16) (cryptFlag : BitVec 32) :
    Except Throwable (List Byte) :=
  sms4 p p.length key (List.replicate p.length 0) cryptFlag

/-- One call of `sms4` always returns, and what it returns is the result of the method that works
block by block just if the length is below `2 ^ 31 - 16`. -/
theorem sms4_agrees_iff (p : Bytes) (key : Vector Byte 16) :
    ((∃ c, sms4Whole p.toList key encryptFlag = .ok c ∧ encodeSMS4 p.toList key = .ok c) ∧
      ∃ c, sms4Whole p.toList key decryptFlag = .ok c ∧ decodeSMS4 p.toList key = .ok c) ↔
      p.toList.length < 2 ^ 31 - 16 := by
  obtain ⟨p, hp⟩ := p
  obtain ⟨bs, r, rfl, hr⟩ := exists_blocks (n := 16) (by decide) p
  rw [encodeSMS4_eq key bs hr hp, decodeSMS4_eq key bs hr hp]
  constructor
  · rintro ⟨⟨c, -, hc⟩, -⟩
    by_contra hlong
    rw [if_neg hlong] at hc
    cases hc
  · intro hshort
    rw [if_pos hshort, if_pos hshort]
    exact ⟨⟨_, sms4_encrypt key bs hr, rfl⟩, _, sms4_decrypt key bs hr, rfl⟩

/-- Of `2 ^ 31 - 16` zeros `sms4` encrypts every block, while `encodeSMS4` throws. -/
theorem encodeSMS4_throws :
    (∃ c, sms4Whole (List.replicate (2 ^ 31 - 16) 0) (Vector.replicate 16 0) encryptFlag = .ok c) ∧
      encodeSMS4 (List.replicate (2 ^ 31 - 16) 0) (Vector.replicate 16 0) =
        .error .indexOutOfBounds := by
  have hlen : (List.replicate (2 ^ 31 - 16) (0 : Byte)).length = 2 ^ 31 - 16 :=
    List.length_replicate
  obtain ⟨bs, r, hp, hr⟩ :=
    exists_blocks (n := 16) (by decide) (List.replicate (2 ^ 31 - 16) (0 : Byte))
  rw [hp] at hlen ⊢
  refine ⟨⟨_, sms4_encrypt _ bs hr⟩, ?_⟩
  rw [encodeSMS4_eq _ bs hr (by omega), if_neg (by omega)]

/-- The round trip keeps the full blocks and clears the rest. -/
theorem roundTrip_eq (key : Vector Byte 16) (bs : List (Vector Byte 16)) {r : List Byte}
    (hr : r.length < 16) (hlen : (join bs ++ r).length < 2 ^ 31) :
    (encodeSMS4 (join bs ++ r) key >>= (decodeSMS4 · key)) =
      if (join bs ++ r).length < 2 ^ 31 - 16 then .ok (join bs ++ List.replicate r.length 0)
      else .error .indexOutOfBounds := by
  rw [encodeSMS4_eq key bs hr hlen]
  by_cases hshort : (join bs ++ r).length < 2 ^ 31 - 16
  · have hlen' : (join (bs.map (Sm4Standard.encipher key)) ++ List.replicate r.length 0).length =
        (join bs ++ r).length := by simp
    have hmap : (bs.map (Sm4Standard.encipher key)).map (Sm4Standard.decipher key) = bs := by
      rw [List.map_map]
      exact (List.map_congr_left fun b _ => Sm4Standard.decipher_encipher key b).trans
        (List.map_id bs)
    rw [if_pos hshort, if_pos hshort]
    simp only [bind, Except.bind]
    rw [decodeSMS4_eq key _ (by simpa using hr) (by omega), if_pos (by omega), hmap,
      List.length_replicate]
  · rw [if_neg hshort, if_neg hshort]
    rfl

def tail (p : List Byte) : List Byte := p.drop (16 * (p.length / 16))

theorem decodeSMS4_encodeSMS4_iff (p : Bytes) (key : Vector Byte 16) :
    (encodeSMS4 p.toList key >>= (decodeSMS4 · key)) = .ok p.toList ↔
      p.toList.length < 2 ^ 31 - 16 ∧ ∀ b ∈ tail p.toList, b = 0 := by
  obtain ⟨p, hp⟩ := p
  obtain ⟨bs, r, rfl, hr⟩ := exists_blocks (n := 16) (by decide) p
  have htail : tail (join bs ++ r) = r := by
    have hcount : 16 * ((join bs ++ r).length / 16) = (join bs).length := by
      simp
      omega
    rw [tail, hcount, List.drop_left]
  rw [roundTrip_eq key bs hr hp, htail]
  by_cases hshort : (join bs ++ r).length < 2 ^ 31 - 16
  · rw [if_pos hshort, Except.ok.injEq, List.append_cancel_left_eq, eq_comm, List.eq_replicate_iff]
    constructor
    · rintro ⟨-, hzero⟩
      exact ⟨hshort, hzero⟩
    · rintro ⟨-, hzero⟩
      exact ⟨rfl, hzero⟩
  · rw [if_neg hshort]
    constructor
    · intro h
      cases h
    · rintro ⟨h, -⟩
      exact absurd h hshort

/-- The bytes of `Spider.main`, "hello1234567890123456" under the key "1234567890123456",
come back with their last five bytes cleared. -/
theorem decodeSMS4_loses_tail :
    let key : Vector Byte 16 := #v[0x31, 0x32, 0x33, 0x34, 0x35, 0x36, 0x37, 0x38, 0x39, 0x30, 0x31,
      0x32, 0x33, 0x34, 0x35, 0x36]
    let block : Vector Byte 16 := #v[0x68, 0x65, 0x6C, 0x6C, 0x6F, 0x31, 0x32, 0x33, 0x34, 0x35,
      0x36, 0x37, 0x38, 0x39, 0x30, 0x31]
    (encodeSMS4 (block.toList ++ [0x32, 0x33, 0x34, 0x35, 0x36]) key >>= (decodeSMS4 · key)) =
      .ok (block.toList ++ [0, 0, 0, 0, 0]) := by
  intro key block
  have h := roundTrip_eq key [block] (r := [0x32, 0x33, 0x34, 0x35, 0x36]) (by decide) (by simp)
  rw [if_pos (by simp)] at h
  simpa [join] using h

end Hatch.Sm4
