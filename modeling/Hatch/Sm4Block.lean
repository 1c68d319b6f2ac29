import Hatch.BitString
import Hatch.FixedArray
import Hatch.Sm4
import Hatch.Sm4Standard

/-!
# The block functions of `Sm4.java` and the standard

The array of four words holds a window of the sequence of the standard, word `n` in cell
`n` modulo 4, and each update moves the window on by one. So the in-place loops compute the
sequences, and the methods `encode16` and `decode16` are the two directions of the cipher,
which undo each other.
-/

namespace Hatch.Sm4

open BitString CountedLoop FixedArray Java
open Sm4Standard (Word word)

/-- The `int` of four bytes. -/
theorem or_unsigned (b0 b1 b2 b3 : Byte) :
    unsigned b3 <<< 24 ||| unsigned b2 <<< 16 ||| unsigned b1 <<< 8 ||| unsigned b0 =
      b3 ++ b2 ++ b1 ++ b0 := by
  have hrev (x0 x1 x2 x3 : BitVec 32) : x3 ||| x2 ||| x1 ||| x0 = x0 ||| x1 ||| x2 ||| x3 := by
    ac_rfl
  rw [unsigned_eq, unsigned_eq, unsigned_eq, unsigned_eq, hrev]
  exact (append_bytes b0 b1 b2 b3).symm

theorem sbox_toList : sbox.toList = (List.range 256).map fun i =>
    Sm4Standard.sbox (BitVec.ofNat 8 i) := by
  decide +kernel

theorem sbox_get (i : Fin 256) : sbox.get i = Sm4Standard.sbox (BitVec.ofNat 8 i) := by
  apply get_of_toList
  simp [sbox_toList]

theorem sbox_index (a : BitVec 32) (k : ℕ) :
    sbox.get (index (a >>> k)) = Sm4Standard.sbox (a.extractLsb' k 8) := by
  rw [sbox_get, ← shift_and_byte]
  rfl

theorem byteSub_eq (a : BitVec 32) : byteSub a = Sm4Standard.tau a := by
  have h0 : sbox.get (index a) = Sm4Standard.sbox (a.extractLsb' 0 8) := sbox_index a 0
  rw [byteSub, Sm4Standard.tau, sbox_index, sbox_index, sbox_index, h0]
  exact or_unsigned _ _ _ _

theorem rotl_eq (x : BitVec 32) {n : ℕ} (h : n < 32) : rotl x n = x.rotateLeft n :=
  (BitVec.rotateLeft_eq_rotateLeftAux_of_lt h).symm

theorem l1_eq (b : BitVec 32) : l1 b = Sm4Standard.l b := by
  simp only [l1, Sm4Standard.l, rotl_eq, Nat.reduceLT]

theorem l2_eq (b : BitVec 32) : l2 b = Sm4Standard.l' b := by
  simp only [l2, Sm4Standard.l', rotl_eq, Nat.reduceLT]

theorem get_loadWords (v : Vector Byte 16) (i : Fin 4) : (loadWords v).get i = word v i := by
  rw [loadWords, get_ofFn, word]
  exact or_unsigned _ _ _ _

def window (w : ℕ → Word) (n : ℕ) : Vector Word 4 :=
  Vector.ofFn fun j => w (n + (j - Fin.ofNat 4 n).val)

theorem get_window (w : ℕ → Word) (n : ℕ) (d : Fin 4) :
    (window w n).get (Fin.ofNat 4 n + d) = w (n + d) := by
  have hd : (Fin.ofNat 4 n + d - Fin.ofNat 4 n).val = d := by
    simp only [Fin.sub_def, Fin.add_def, Fin.ofNat]
    omega
  rw [window, get_ofFn, hd]

/-- Word `n + 4` is what an update makes of the four words before it. -/
def Continues (l : Word → Word) (c : Word) (w : ℕ → Word) (n : ℕ) : Prop :=
  w (n + 4) = w n ^^^ l (byteSub (w (n + 1) ^^^ w (n + 2) ^^^ w (n + 3) ^^^ c))

theorem updateWord_window {l : Word → Word} {c : Word} {w : ℕ → Word} {n : ℕ}
    (h : Continues l c w n) :
    updateWord l c (Fin.ofNat 4 n) (window w n) = window w (n + 1) := by
  have h0 : (window w n).get (Fin.ofNat 4 n) = w n := by simpa using get_window w n 0
  apply ext_get
  intro j
  rw [updateWord, get_set, h0, get_window w n 1, get_window w n 2, get_window w n 3]
  by_cases hj : (Fin.ofNat 4 n).val = j.val
  · have hlast : (j - Fin.ofNat 4 (n + 1)).val = 3 := by
      simp only [Fin.sub_def, Fin.ofNat] at hj ⊢
      omega
    rw [if_pos hj, window, get_ofFn, hlast]
    exact h.symm
  · have hprev : n + 1 + (j - Fin.ofNat 4 (n + 1)).val = n + (j - Fin.ofNat 4 n).val := by
      simp only [Fin.sub_def, Fin.ofNat] at hj ⊢
      omega
    rw [if_neg hj, window, window, get_ofFn, get_ofFn, hprev]

/-- Update `j` of iteration `i`. -/
theorem updateWord_cell {l : Word → Word} {c : Word} {w : ℕ → Word} (i : ℕ) (j : Fin 4)
    (h : Continues l c w (4 * i + j)) :
    updateWord l c j (window w (4 * i + j)) = window w (4 * i + j + 1) := by
  have hcell : Fin.ofNat 4 (4 * i + j) = j := by
    simp only [Fin.ext_iff, Fin.ofNat]
    omega
  have hwindow := updateWord_window h
  rwa [hcell] at hwindow

/-- Cell `j` of the window that starts at a multiple of 4 holds word `n + j`. -/
theorem get_window_mul (w : ℕ → Word) (i : ℕ) (j : Fin 4) :
    (window w (4 * i)).get j = w (4 * i + j) := by
  have hj : j = Fin.ofNat 4 (4 * i) + j := by
    simp only [Fin.ext_iff, Fin.add_def, Fin.ofNat]
    omega
  rw [hj, get_window, ← hj]

theorem eq_window_zero {v : Vector Word 4} {w : ℕ → Word} (h : ∀ j : Fin 4, v.get j = w j) :
    v = window w 0 := by
  apply ext_get
  intro j
  rw [h, ← Nat.zero_add j.val]
  exact (get_window_mul w 0 j).symm

theorem cryptRounds_window {rk : Vector Word 32} {w : ℕ → Word}
    (h : ∀ n : Fin 32, Continues l1 (rk.get n) w n) (i : Fin 8) :
    cryptRounds rk i (window w (4 * i)) = window w (4 * (i + 1)) := by
  have h0 : updateWord l1 (rk.get ⟨4 * i, by omega⟩) 0 (window w (4 * i)) =
    window w (4 * i + 1) := updateWord_cell i 0 (h ⟨4 * i, by omega⟩)
  have h1 : updateWord l1 (rk.get ⟨4 * i + 1, by omega⟩) 1 (window w (4 * i + 1)) =
    window w (4 * i + 2) := updateWord_cell i 1 (h ⟨4 * i + 1, by omega⟩)
  have h2 : updateWord l1 (rk.get ⟨4 * i + 2, by omega⟩) 2 (window w (4 * i + 2)) =
    window w (4 * i + 3) := updateWord_cell i 2 (h ⟨4 * i + 2, by omega⟩)
  have h3 : updateWord l1 (rk.get ⟨4 * i + 3, by omega⟩) 3 (window w (4 * i + 3)) =
    window w (4 * i + 4) := updateWord_cell i 3 (h ⟨4 * i + 3, by omega⟩)
  simp only [cryptRounds, h0, h1, h2, h3]
  rfl

section Crypt

variable (block : Vector Byte 16) {rk : Vector Word 32} {c : ℕ → Word}
  (hrk : ∀ n : Fin 32, rk.get n = c n)

include hrk in
theorem sms4Crypt_eq : sms4Crypt block rk = Sm4Standard.cipher c block := by
  have hload : loadWords block = window (Sm4Standard.stateWord c block) 0 :=
    eq_window_zero fun j => (get_loadWords block j).trans (Sm4Standard.sequence_start ..).symm
  have hloop := loop_eq_trace (fun i => window (Sm4Standard.stateWord c block) (4 * i))
    (cryptRounds_window fun n => by
      rw [Continues, Sm4Standard.stateWord_add_four, l1_eq, byteSub_eq, hrk, Sm4Standard.t])
  apply ext_get
  intro j
  rw [sms4Crypt, Sm4Standard.cipher, Sm4Standard.bytes, get_ofFn, get_ofFn, shift_and_byte, hload,
    hloop, get_window_mul]
  congr 2
  change 4 * 8 + (3 - j.val / 4) = 35 - j.val / 4
  omega

end Crypt

def keyState (w : ℕ → Word) (rk : Vector Word 32) (n : ℕ) : Vector Word 4 × Vector Word 32 :=
  (window w n, Vector.ofFn fun m => if m.val < n then w (m + 4) else rk.get m)

theorem expandWord_cell {w : ℕ → Word} (rk : Vector Word 32) (i : ℕ) (j : Fin 4)
    (hn : 4 * i + j < 32) (h : Continues l2 (ck.get ⟨4 * i + j, hn⟩) w (4 * i + j)) :
    expandWord ⟨4 * i + j, hn⟩ j (keyState w rk (4 * i + j)) = keyState w rk (4 * i + j + 1) := by
  have hlast : (window w (4 * i + j + 1)).get j = w (4 * i + j + 4) := by
    have hj : Fin.ofNat 4 (4 * i + j + 1) + 3 = j := by
      simp only [Fin.ext_iff, Fin.add_def, Fin.ofNat]
      omega
    have hget := get_window w (4 * i + j + 1) 3
    rw [hj] at hget
    exact hget
  have hstore : (keyState w rk (4 * i + j)).2.set (4 * i + j) (w (4 * i + j + 4)) hn =
      (keyState w rk (4 * i + j + 1)).2 := by
    apply ext_get
    intro m
    rw [get_set, keyState, keyState, get_ofFn, get_ofFn]
    by_cases hm : 4 * i + j.val = m.val
    · rw [if_pos hm, if_pos (by omega), hm]
    · have hiff : m.val < 4 * i + j ↔ m.val < 4 * i + j + 1 := by omega
      simp only [if_neg hm, hiff]
  have hupdate : updateWord l2 (ck.get ⟨4 * i + j, hn⟩) j (keyState w rk (4 * i + j)).1 =
    window w (4 * i + j + 1) := updateWord_cell i j h
  simp only [expandWord, hupdate, hlast, hstore]
  rfl

theorem expandRounds_keyState {w : ℕ → Word} (rk : Vector Word 32)
    (h : ∀ n : Fin 32, Continues l2 (ck.get n) w n) (i : Fin 8) :
    expandRounds i (keyState w rk (4 * i)) = keyState w rk (4 * (i + 1)) := by
  have hn (j : Fin 4) : 4 * i.val + j < 32 := by omega
  have h0 : expandWord ⟨4 * i, by omega⟩ 0 (keyState w rk (4 * i)) =
    keyState w rk (4 * i + 1) := expandWord_cell rk i 0 (hn 0) (h ⟨_, hn 0⟩)
  have h1 : expandWord ⟨4 * i + 1, by omega⟩ 1 (keyState w rk (4 * i + 1)) =
    keyState w rk (4 * i + 2) := expandWord_cell rk i 1 (hn 1) (h ⟨_, hn 1⟩)
  have h2 : expandWord ⟨4 * i + 2, by omega⟩ 2 (keyState w rk (4 * i + 2)) =
    keyState w rk (4 * i + 3) := expandWord_cell rk i 2 (hn 2) (h ⟨_, hn 2⟩)
  have h3 : expandWord ⟨4 * i + 3, by omega⟩ 3 (keyState w rk (4 * i + 3)) =
    keyState w rk (4 * i + 4) := expandWord_cell rk i 3 (hn 3) (h ⟨_, hn 3⟩)
  simp only [expandRounds, h0, h1, h2, h3]
  rfl

theorem ck_get : ∀ n : Fin 32, ck.get n = Sm4Standard.ck n := by decide

theorem loop_expandRounds (key : Vector Byte 16) (rk : Vector Word 32) :
    (loop 8 expandRounds (Vector.zipWith (· ^^^ ·) (loadWords key)
      #v[0xa3b1bac6, 0x56aa3350, 0x677d9197, 0xb27022dc], rk)).2 =
      Vector.ofFn fun n : Fin 32 => Sm4Standard.roundKey key n := by
  have hstart : (Vector.zipWith (· ^^^ ·) (loadWords key)
      #v[0xa3b1bac6, 0x56aa3350, 0x677d9197, 0xb27022dc], rk) =
      keyState (Sm4Standard.keyWord key) rk 0 := by
    refine congrArg₂ Prod.mk (eq_window_zero fun j => ?_) (ext_get fun m => ?_)
    · rw [get_zipWith, get_loadWords, Sm4Standard.keyWord, Sm4Standard.sequence_start]
      rfl
    · rw [get_ofFn, if_neg (Nat.not_lt_zero _)]
  have hloop := loop_eq_trace (fun i => keyState (Sm4Standard.keyWord key) rk (4 * i))
    (expandRounds_keyState rk fun n => by
      rw [Continues, Sm4Standard.keyWord_add_four, l2_eq, byteSub_eq, ck_get, Sm4Standard.t'])
  rw [hstart, hloop]
  apply ext_get
  intro n
  simp only [keyState, get_ofFn]
  rw [if_pos n.isLt]
  rfl

def exchanged (rk : Vector Word 32) (r : ℕ) : Vector Word 32 :=
  Vector.ofFn fun n => if n.val < r ∨ 31 - n.val < r then rk.get ⟨31 - n, by omega⟩ else rk.get n

theorem exchange_exchanged (rk : Vector Word 32) (r : Fin 16) :
    exchange r (exchanged rk r) = exchanged rk (r + 1) := by
  apply ext_get
  intro n
  simp only [exchange, get_set, exchanged, get_ofFn]
  by_cases hhigh : 31 - r.val = n.val
  · rw [if_pos hhigh, if_neg (by omega), if_pos (by omega)]
    exact congrArg rk.get (Fin.ext (by simp; omega))
  · rw [if_neg hhigh]
    by_cases hlow : r.val = n.val
    · rw [if_pos hlow, if_neg (by omega), if_pos (by omega)]
      exact congrArg rk.get (Fin.ext (by simp; omega))
    · have hiff : (n.val < r ∨ 31 - n.val < r) ↔ (n.val < r + 1 ∨ 31 - n.val < r + 1) := by omega
      simp only [if_neg hlow, hiff]

/-- The swaps reverse the round keys from both ends. -/
theorem loop_exchange (rk : Vector Word 32) :
    loop 16 exchange rk = Vector.ofFn fun n : Fin 32 => rk.get ⟨31 - n, by omega⟩ := by
  have hstart : rk = exchanged rk 0 := by
    apply ext_get
    intro n
    rw [exchanged, get_ofFn, if_neg (by omega)]
  have hloop := loop_eq_trace (exchanged rk) (exchange_exchanged rk)
  rw [← hstart] at hloop
  rw [hloop]
  apply ext_get
  intro n
  rw [exchanged, get_ofFn, get_ofFn, if_pos (by omega)]

theorem get_sms4KeyExt_encrypt (key : Vector Byte 16) (rk : Vector Word 32) (n : Fin 32) :
    (sms4KeyExt key rk encryptFlag).get n = Sm4Standard.roundKey key n := by
  rw [sms4KeyExt]
  simp only [if_neg (show ¬ encryptFlag = decryptFlag by decide), loop_expandRounds, get_ofFn]

theorem get_sms4KeyExt_decrypt (key : Vector Byte 16) (rk : Vector Word 32) (n : Fin 32) :
    (sms4KeyExt key rk decryptFlag).get n = Sm4Standard.roundKey key (31 - n) := by
  rw [sms4KeyExt]
  simp only [if_true, loop_expandRounds, loop_exchange, get_ofFn]

theorem sms4Crypt_encrypt (key block : Vector Byte 16) (rk : Vector Word 32) :
    sms4Crypt block (sms4KeyExt key rk encryptFlag) = Sm4Standard.encipher key block :=
  sms4Crypt_eq block (get_sms4KeyExt_encrypt key rk)

theorem sms4Crypt_decrypt (key block : Vector Byte 16) (rk : Vector Word 32) :
    sms4Crypt block (sms4KeyExt key rk decryptFlag) = Sm4Standard.decipher key block :=
  sms4Crypt_eq block (get_sms4KeyExt_decrypt key rk)

/-- The key expansion stores the round keys of the standard, and the cipher with the keys in
either order is the standard's. -/
theorem sm4_conforms (key block : Vector Byte 16) (rk : Vector Word 32) :
    (∀ n : Fin 32, (sms4KeyExt key rk encryptFlag).get n = Sm4Standard.roundKey key n) ∧
      sms4Crypt block (sms4KeyExt key rk encryptFlag) = Sm4Standard.encipher key block ∧
      sms4Crypt block (sms4KeyExt key rk decryptFlag) = Sm4Standard.decipher key block :=
  ⟨get_sms4KeyExt_encrypt key rk, sms4Crypt_encrypt key block rk, sms4Crypt_decrypt key block rk⟩

/-- The example of the standard, whose key is also the block. -/
example :
    let block : Vector Byte 16 := #v[0x01, 0x23, 0x45, 0x67, 0x89, 0xab, 0xcd, 0xef, 0xfe, 0xdc,
      0xba, 0x98, 0x76, 0x54, 0x32, 0x10]
    sms4Crypt block (sms4KeyExt block (Vector.replicate 32 0) encryptFlag) =
      #v[0x68, 0x1e, 0xdf, 0x34, 0xd2, 0x06, 0x96, 0x5e, 0x86, 0xb3, 0xe9, 0x4f, 0x53, 0x6e, 0x42,
        0x46] := by
  decide +kernel

theorem copyOfRange_cell (before : List Byte) (b : Vector Byte 16) (after : List Byte) :
    copyOfRange (before ++ (b.toList ++ after)) before.length 16 = .ok b := by
  have hb : b.toList.length = 16 := Vector.length_toList
  rw [copyOfRange, if_pos (by simp)]
  refine congrArg Except.ok (ext_get fun i => ?_)
  have hi : i.val < b.toList.length := by omega
  rw [get_ofFn, List.getElem?_append_right (Nat.le_add_right _ _), Nat.add_sub_cancel_left,
    List.getElem?_append_left hi, List.getElem?_eq_getElem hi]
  rfl

theorem arraycopy_result (written : List Byte) (b : Vector Byte 16) (n : ℕ) :
    arraycopy b.toList 0 (written ++ List.replicate (16 + n) 0) written.length b.toList.length =
      .ok (written ++ b.toList ++ List.replicate n 0) := by
  have hb : b.toList.length = 16 := Vector.length_toList
  rw [arraycopy, if_pos (by simp [hb]), List.take_left, List.drop_zero, List.take_length,
    ← List.drop_drop, List.drop_left, hb, List.drop_replicate, Nat.add_sub_cancel_left]

/-- One iteration of `sms4` writes one block. -/
theorem sms4Loop_block (rk : Vector Word 32) (before written : List Byte) (b : Vector Byte 16)
    (after : List Byte) (hwritten : written.length = before.length) (n m : ℕ) :
    sms4Loop (before ++ (b.toList ++ after)) rk (16 + n) before.length
        (written ++ List.replicate (16 + m) 0) =
      sms4Loop (before ++ (b.toList ++ after)) rk n (before.length + 16)
        (written ++ (sms4Crypt b rk).toList ++ List.replicate m 0) := by
  have hcopy := arraycopy_result written (sms4Crypt b rk) m
  rw [Vector.length_toList, hwritten] at hcopy
  rw [sms4Loop, if_pos (Nat.le_add_right 16 n), copyOfRange_cell]
  simp only [bind, Except.bind, hcopy, Nat.add_sub_cancel_left]

theorem sms4_block (block key : Vector Byte 16) (cryptFlag : BitVec 32) :
    sms4 block.toList 16 key (List.replicate 16 0) cryptFlag =
      .ok (sms4Crypt block (sms4KeyExt key (Vector.replicate 32 0) cryptFlag)).toList := by
  have hstep := sms4Loop_block (sms4KeyExt key (Vector.replicate 32 0) cryptFlag) [] [] block []
    rfl 0 0
  simp only [List.nil_append, List.append_nil, List.length_nil, List.replicate_zero] at hstep
  rw [sms4, hstep, sms4Loop, if_neg (by decide)]

theorem encode16_eq (key block : Vector Byte 16) :
    encode16 block.toList key = .ok (Sm4Standard.encipher key block).toList := by
  rw [encode16, sms4_block, sms4Crypt_encrypt]

theorem decode16_eq (key block : Vector Byte 16) :
    decode16 block.toList key = .ok (Sm4Standard.decipher key block).toList := by
  rw [decode16, sms4_block, sms4Crypt_decrypt]

/-- Each of the two methods undoes the other on every block. -/
theorem block_inverse (key block : Vector Byte 16) :
    (encode16 block.toList key >>= (decode16 · key)) = .ok block.toList ∧
      (decode16 block.toList key >>= (encode16 · key)) = .ok block.toList := by
  rw [encode16_eq, decode16_eq]
  simp only [bind, Except.bind]
  rw [encode16_eq, decode16_eq, Sm4Standard.decipher_encipher, Sm4Standard.encipher_decipher]
  exact ⟨rfl, rfl⟩

end Hatch.Sm4
