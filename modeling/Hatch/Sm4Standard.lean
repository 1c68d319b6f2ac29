import Hatch.BitString
import Hatch.CountedLoop
import Hatch.Feistel
import Hatch.FixedArray

/-!
# The SM4 block cipher

The standard on 16-byte keys and blocks: two sequences of 36 words, of which the first gives
the round keys and the second the state, each continued from four words by one recurrence.
The S-box is given in its algebraic form, an affine map before and after the inversion in
the field of 256 elements. Deciphering uses the round keys in reverse order.
-/

namespace Sm4Standard

open BitString CountedLoop Feistel FixedArray

abbrev Byte := BitVec 8

abbrev Word := BitVec 32

/-- The product with `x` in the field, whose elements are polynomials over bits modulo
`x⁸ + x⁷ + x⁶ + x⁵ + x⁴ + x² + 1`, written as numbers. -/
def timesX (r : ℕ) : ℕ := (2 * r % 256) ^^^ (r / 128 * 0xf5)

def mul (a b : ℕ) : ℕ :=
  [128, 64, 32, 16, 8, 4, 2, 1].foldl (fun r p => timesX r ^^^ (b / p % 2 * a)) 0

/-- The power 254, which is the inverse of every element but 0: the product of the powers
`2`, `4`, …, `128`. -/
def inverse (a : ℕ) : ℕ :=
  (loop 6 (fun _ s => (mul s.1 s.1, mul s.2 (mul s.1 s.1))) (mul a a, mul a a)).2

def turned (k a : ℕ) : ℕ := a * 2 ^ k % 256 + a * 2 ^ k / 256

def affine (a : ℕ) : ℕ := a ^^^ turned 1 a ^^^ turned 3 a ^^^ turned 6 a ^^^ turned 7 a ^^^ 0xd3

def sbox (a : Byte) : Byte := BitVec.ofNat 8 (affine (inverse (affine a.toNat)))

def tau (a : Word) : Word :=
  sbox (a.extractLsb' 24 8) ++ sbox (a.extractLsb' 16 8) ++ sbox (a.extractLsb' 8 8) ++
    sbox (a.extractLsb' 0 8)

def l (b : Word) : Word :=
  b ^^^ b.rotateLeft 2 ^^^ b.rotateLeft 10 ^^^ b.rotateLeft 18 ^^^ b.rotateLeft 24

def l' (b : Word) : Word := b ^^^ b.rotateLeft 13 ^^^ b.rotateLeft 23

def t (a : Word) : Word := l (tau a)

def t' (a : Word) : Word := l' (tau a)

def fk : Vector Word 4 := #v[0xa3b1bac6, 0x56aa3350, 0x677d9197, 0xb27022dc]

def ck (i : ℕ) : Word :=
  let byte (j : ℕ) : Byte := BitVec.ofNat 8 (7 * (4 * i + j))
  byte 0 ++ byte 1 ++ byte 2 ++ byte 3

/-- The sequence that starts with four words and goes on with
`W (i + 4) = W i ^ f (W (i + 1) ^ W (i + 2) ^ W (i + 3) ^ c i)`. -/
def sequence (f : Word → Word) (c : ℕ → Word) (start : Fin 4 → Word) : ℕ → Word
  | 0 => start 0
  | 1 => start 1
  | 2 => start 2
  | 3 => start 3
  | i + 4 => sequence f c start i ^^^
      f (sequence f c start (i + 1) ^^^ sequence f c start (i + 2) ^^^
        sequence f c start (i + 3) ^^^ c i)

theorem sequence_start (f : Word → Word) (c : ℕ → Word) (start : Fin 4 → Word) (j : Fin 4) :
    sequence f c start j = start j := by
  match j with
  | 0 | 1 | 2 | 3 => rfl

def word (v : Vector Byte 16) (i : Fin 4) : Word :=
  let byte (j : Fin 4) : Byte := v.get ⟨4 * i + j, by omega⟩
  byte 0 ++ byte 1 ++ byte 2 ++ byte 3

def bytes (w : Fin 4 → Word) : Vector Byte 16 :=
  Vector.ofFn fun j => (w ⟨j / 4, div_four_lt j⟩).extractLsb' (24 - 8 * (j % 4)) 8

def keyWord (key : Vector Byte 16) : ℕ → Word :=
  sequence t' ck fun i => word key i ^^^ fk.get i

theorem keyWord_add_four (key : Vector Byte 16) (i : ℕ) :
    keyWord key (i + 4) = keyWord key i ^^^
      t' (keyWord key (i + 1) ^^^ keyWord key (i + 2) ^^^ keyWord key (i + 3) ^^^ ck i) := rfl

def roundKey (key : Vector Byte 16) (i : ℕ) : Word := keyWord key (i + 4)

def stateWord (rk : ℕ → Word) (block : Vector Byte 16) : ℕ → Word := sequence t rk (word block)

theorem stateWord_add_four (rk : ℕ → Word) (block : Vector Byte 16) (i : ℕ) :
    stateWord rk block (i + 4) = stateWord rk block i ^^^
      t (stateWord rk block (i + 1) ^^^ stateWord rk block (i + 2) ^^^
        stateWord rk block (i + 3) ^^^ rk i) := rfl

def cipher (rk : ℕ → Word) (block : Vector Byte 16) : Vector Byte 16 :=
  bytes fun j => stateWord rk block (35 - j)

def encipher (key block : Vector Byte 16) : Vector Byte 16 := cipher (roundKey key) block

def decipher (key block : Vector Byte 16) : Vector Byte 16 :=
  cipher (fun i => roundKey key (31 - i)) block

theorem word_bytes (w : Fin 4 → Word) (i : Fin 4) : word (bytes w) i = w i := by
  have hget (j : Fin 4) : (bytes w).get ⟨4 * i + j, by omega⟩ =
      (w i).extractLsb' (24 - 8 * j) 8 := by
    have hi : (4 * i.val + j) / 4 = i := by omega
    have hj : (4 * i.val + j) % 4 = j := by omega
    simp only [bytes, get_ofFn, hi, hj]
  have h := extract_bytes (w i)
  rw [word]
  exact (congrArg₂ _ (congrArg₂ _ (congrArg₂ _ (hget 0) (hget 1)) (hget 2)) (hget 3)).trans h

theorem bytes_word (v : Vector Byte 16) : bytes (word v) = v := by
  apply ext_get
  intro j
  rw [bytes, get_ofFn, word]
  have h := extract_append_bytes (fun k => v.get ⟨4 * (j / 4) + k, by omega⟩) ⟨j % 4, by omega⟩
  refine Eq.trans h (congrArg v.get (Fin.ext ?_))
  change 4 * (j.val / 4) + j.val % 4 = j.val
  omega

def frame (w : ℕ → Word) (n : ℕ) : Word × Word × Word × Word :=
  (w n, w (n + 1), w (n + 2), w (n + 3))

def round : Word → Word × Word × Word × Word → Word × Word × Word × Word :=
  shift (· ^^^ ·) fun k a b c => t (a ^^^ b ^^^ c ^^^ k)

theorem reverses_round : Reverses round turn :=
  reverses_shift (fun a b => by rw [BitVec.xor_assoc, BitVec.xor_self, BitVec.xor_zero])
    fun k a b c => by
      have h : c ^^^ b ^^^ a = a ^^^ b ^^^ c := by ac_rfl
      rw [h]

def quad (v : Vector Byte 16) : Word × Word × Word × Word :=
  (word v 0, word v 1, word v 2, word v 3)

theorem quad_injective {v v' : Vector Byte 16} (h : quad v = quad v') : v = v' := by
  rw [← bytes_word v, ← bytes_word v']
  congr 1
  funext j
  simp only [quad, Prod.mk.injEq] at h
  obtain ⟨h0, h1, h2, h3⟩ := h
  match j with
  | 0 => exact h0
  | 1 => exact h1
  | 2 => exact h2
  | 3 => exact h3

theorem frame_eq_rounds (rk : ℕ → Word) (block : Vector Byte 16) (n : ℕ) :
    frame (stateWord rk block) n = rounds round ((List.range n).map rk) (quad block) := by
  induction n with
  | zero => rfl
  | succ n ih =>
      rw [List.range_succ, List.map_append, rounds_append, ← ih]
      rfl

theorem quad_cipher (rk : ℕ → Word) (block : Vector Byte 16) :
    quad (cipher rk block) = crypt round turn ((List.range 32).map rk) (quad block) := by
  have hword (j : Fin 4) : word (cipher rk block) j = stateWord rk block (35 - j) :=
    word_bytes (fun j => stateWord rk block (35 - j)) j
  have hframe : quad (cipher rk block) = turn (frame (stateWord rk block) 32) := by
    rw [quad, hword, hword, hword, hword]
    rfl
  rw [hframe, frame_eq_rounds]
  rfl

theorem cipher_reverse {rk rk' : ℕ → Word} (h : ∀ i < 32, rk' i = rk (31 - i))
    (block : Vector Byte 16) : cipher rk' (cipher rk block) = block := by
  have hkeys : (List.range 32).map rk' = ((List.range 32).map rk).reverse := by
    apply List.ext_getElem (by simp)
    intro i hi hi'
    simp at hi ⊢
    exact h i hi
  apply quad_injective
  rw [quad_cipher, quad_cipher, hkeys, reverses_round.crypt_reverse]

theorem decipher_encipher (key block : Vector Byte 16) :
    decipher key (encipher key block) = block :=
  cipher_reverse (fun _ _ => rfl) block

theorem encipher_decipher (key block : Vector Byte 16) :
    encipher key (decipher key block) = block :=
  cipher_reverse (fun i hi => by rw [show 31 - (31 - i) = i by omega]) block

end Sm4Standard
