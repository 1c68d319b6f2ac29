import Mathlib.Data.Nat.Notation

/-!
# Cipher block chaining and padding

Every block is combined with the result for the block before it, or with an initial value,
before it is enciphered. A message of bytes is first brought to a whole number of blocks:
between one byte and a full block is added, each byte being their number.
-/

namespace BlockChaining

section Chain

variable {α : Type*} (combine : α → α → α)

def chain (f : α → α) : α → List α → List α
  | _, [] => []
  | v, b :: bs => f (combine b v) :: chain f (f (combine b v)) bs

def unchain (g : α → α) : α → List α → List α
  | _, [] => []
  | v, c :: cs => combine (g c) v :: unchain g c cs

variable {combine} {f g : α → α}

@[simp] theorem length_chain (v : α) (bs : List α) :
    (chain combine f v bs).length = bs.length := by
  induction bs generalizing v with
  | nil => rfl
  | cons b bs ih => rw [chain, List.length_cons, List.length_cons, ih]

theorem unchain_chain (cancel : ∀ a b, combine (combine a b) b = a) (hg : ∀ a, g (f a) = a) (v : α)
    (bs : List α) : unchain combine g v (chain combine f v bs) = bs := by
  induction bs generalizing v with
  | nil => rfl
  | cons b bs ih => rw [chain, unchain, hg, cancel, ih]

end Chain

variable {n : ℕ}

def pad (n : ℕ) (m : List (BitVec 8)) : List (BitVec 8) :=
  m ++ List.replicate (n - m.length % n) (BitVec.ofNat 8 (n - m.length % n))

def unpad (n : ℕ) (l : List (BitVec 8)) : Option (List (BitVec 8)) :=
  match l.getLast? with
  | none => none
  | some last =>
      if 0 < last.toNat ∧ last.toNat ≤ n ∧
          l.drop (l.length - last.toNat) = List.replicate last.toNat last then
        some (l.take (l.length - last.toNat))
      else none

theorem length_pad (hn : 0 < n) (m : List (BitVec 8)) :
    (pad n m).length = n * (m.length / n + 1) := by
  have hlt := Nat.mod_lt m.length hn
  have hdiv := Nat.div_add_mod m.length n
  rw [pad, List.length_append, List.length_replicate, Nat.mul_add, Nat.mul_one]
  omega

theorem unpad_pad (hn : 0 < n) (hsmall : n < 256) (m : List (BitVec 8)) :
    unpad n (pad n m) = some m := by
  have hlt := Nat.mod_lt m.length hn
  generalize hk : n - m.length % n = k
  have hlast : (pad n m).getLast? = some (BitVec.ofNat 8 k) := by
    rw [pad, hk, List.getLast?_append, List.getLast?_replicate, if_neg (by omega)]
    rfl
  have hnat : (BitVec.ofNat 8 k).toNat = k := by
    rw [BitVec.toNat_ofNat]
    omega
  have hlen : (pad n m).length - k = m.length := by
    rw [pad, hk]
    simp
  rw [unpad, hlast]
  simp only
  rw [hnat, hlen, pad, hk, List.drop_left, List.take_left, if_pos ⟨by omega, by omega, rfl⟩]

end BlockChaining
