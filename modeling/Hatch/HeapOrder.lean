import Mathlib.Data.List.Sort
import Mathlib.Logic.Equiv.Basic
import Mathlib.Order.Basic

/-!
# Heap order in an array

A heap is an array whose indices form a tree by a parent function, with no value above that of its
parent. The order is stated from an index on, for a heap that is built from its end, and with one
index left out, for a value that is moved towards the leaves. Sorting takes the root of a heap to
its end until the rest is a root only: `Extracting` is what holds in between.
-/

namespace HeapOrder

variable {α : Type*} {a b c : ℕ → α} {i j k n : ℕ}

/-! ### Rearrangements -/

def exchange (a : ℕ → α) (i j : ℕ) : ℕ → α := a ∘ Equiv.swap i j

theorem exchange_left (a : ℕ → α) (i j : ℕ) : exchange a i j i = a j :=
  congrArg a (Equiv.swap_apply_left i j)

theorem exchange_right (a : ℕ → α) (i j : ℕ) : exchange a i j j = a i :=
  congrArg a (Equiv.swap_apply_right i j)

theorem exchange_of_ne (a : ℕ → α) (hi : k ≠ i) (hj : k ≠ j) : exchange a i j k = a k :=
  congrArg a (Equiv.swap_apply_of_ne_of_ne hi hj)

/-- Two values are exchanged by two writes. -/
theorem update_update_eq_exchange (a : ℕ → α) (i j : ℕ) :
    Function.update (Function.update a i (a j)) j (a i) = exchange a i j := by
  rw [exchange, Equiv.swap_comm, Equiv.comp_swap_eq_update]

theorem exchange_comm (a : ℕ → α) (i j : ℕ) : exchange a i j = exchange a j i := by
  rw [exchange, exchange, Equiv.swap_comm]

/-- `b` has the values of `a`, those of the indices below `n` in some other order. -/
def Rearranged (n : ℕ) (a b : ℕ → α) : Prop :=
  ∃ σ : Equiv.Perm ℕ, (∀ i, n ≤ i → σ i = i) ∧ b = a ∘ σ

theorem Rearranged.refl (n : ℕ) (a : ℕ → α) : Rearranged n a a :=
  ⟨Equiv.refl ℕ, fun _ _ => rfl, rfl⟩

theorem Rearranged.trans (hab : Rearranged n a b) (hbc : Rearranged n b c) : Rearranged n a c := by
  obtain ⟨σ, hσ, rfl⟩ := hab
  obtain ⟨τ, hτ, rfl⟩ := hbc
  refine ⟨τ.trans σ, fun i hi => ?_, rfl⟩
  rw [Equiv.trans_apply, hτ i hi, hσ i hi]

theorem Rearranged.mono (h : Rearranged k a b) (hk : k ≤ n) : Rearranged n a b := by
  obtain ⟨σ, hσ, hb⟩ := h
  exact ⟨σ, fun i hi => hσ i (hk.trans hi), hb⟩

theorem rearranged_exchange (a : ℕ → α) (hi : i < n) (hj : j < n) :
    Rearranged n a (exchange a i j) := by
  refine ⟨Equiv.swap i j, fun m hm => ?_, rfl⟩
  exact Equiv.swap_apply_of_ne_of_ne (by omega) (by omega)

theorem Rearranged.eq_of_le (h : Rearranged n a b) (hi : n ≤ i) : b i = a i := by
  obtain ⟨σ, hσ, rfl⟩ := h
  exact congrArg a (hσ i hi)

theorem perm_lt {σ : Equiv.Perm ℕ} (hσ : ∀ i, n ≤ i → σ i = i) : σ i < n ↔ i < n := by
  constructor
  · intro h
    by_contra hn
    rw [hσ i (Nat.not_lt.mp hn)] at h
    exact hn h
  · intro h
    by_contra hn
    have hfix := σ.injective (hσ (σ i) (Nat.not_lt.mp hn))
    rw [hfix] at hn
    exact hn h

def cells (a : ℕ → α) (n : ℕ) : List α := (List.range n).map a

theorem Rearranged.perm (h : Rearranged n a b) : (cells b n).Perm (cells a n) := by
  obtain ⟨σ, hσ, rfl⟩ := h
  have hrange : ((List.range n).map σ).Perm (List.range n) := by
    apply (List.perm_ext_iff_of_nodup (List.nodup_range.map σ.injective) List.nodup_range).mpr
    intro m
    simp only [List.mem_map, List.mem_range]
    constructor
    · rintro ⟨i, hi, rfl⟩
      exact (perm_lt hσ).mpr hi
    · intro hm
      refine ⟨σ.symm m, ?_, σ.apply_symm_apply m⟩
      rw [← perm_lt hσ, σ.apply_symm_apply]
      exact hm
  have hmap := hrange.map a
  rwa [List.map_map] at hmap

variable [LinearOrder α]

/-! ### Values in their places -/

def Ascending (a : ℕ → α) (n : ℕ) : Prop := ∀ i m, i < m → m < n → a i ≤ a m

/-- From `j` on, every value is in its place among all values. -/
def Settled (a : ℕ → α) (j n : ℕ) : Prop := ∀ i m, i < m → j ≤ m → m < n → a i ≤ a m

theorem settled_self (a : ℕ → α) (n : ℕ) : Settled a n n :=
  fun _ _ _ hn hm => absurd hm (Nat.not_lt.mpr hn)

/-- A value alone is in its place. -/
theorem Settled.ascending (h : Settled a 1 n) : Ascending a n :=
  fun i m him hm => h i m him (Nat.one_le_of_lt him) hm

theorem Settled.rearranged (h : Settled a j n) (hab : Rearranged j a b) : Settled b j n := by
  intro i m him hjm hm
  rw [hab.eq_of_le hjm]
  rcases Nat.lt_or_ge i j with hij | hij
  · obtain ⟨σ, hσ, rfl⟩ := hab
    exact h (σ i) m (((perm_lt hσ).mpr hij).trans_le hjm) hjm hm
  · rw [hab.eq_of_le hij]
    exact h i m him hjm hm

/-- The greatest value is put in its place. -/
theorem Settled.exchange_root (h : Settled a (j + 1) n) (hmax : ∀ i, i ≤ j → a i ≤ a 0) :
    Settled (exchange a 0 j) j n := by
  intro i m him hjm hm
  rcases Nat.eq_or_lt_of_le hjm with rfl | hlt
  · rw [exchange_right]
    by_cases hi : i = 0
    · rw [hi, exchange_left]
      exact hmax j le_rfl
    · rw [exchange_of_ne a hi him.ne]
      exact hmax i him.le
  · rw [exchange_of_ne a (Nat.ne_zero_of_lt hlt) hlt.ne']
    by_cases hi : i = 0
    · rw [hi, exchange_left]
      exact h j m hlt hlt hm
    by_cases hij : i = j
    · rw [hij, exchange_right]
      exact h 0 m (Nat.zero_lt_of_lt hlt) hlt hm
    · rw [exchange_of_ne a hi hij]
      exact h i m him hlt hm

theorem Ascending.pairwise (h : Ascending a n) : (cells a n).Pairwise (· ≤ ·) := by
  apply List.pairwise_map.mpr
  refine List.pairwise_lt_range.imp_of_mem fun {i m} _ hm him => ?_
  exact h i m him (List.mem_range.mp hm)

/-- There is one ascending order of some values. -/
theorem Ascending.eq (hb : Ascending b n) (hc : Ascending c n) (hab : Rearranged n a b)
    (hac : Rearranged n a c) : b = c := by
  have hcells : cells b n = cells c n :=
    (hab.perm.trans hac.perm.symm).eq_of_pairwise' hb.pairwise hc.pairwise
  funext i
  rcases Nat.lt_or_ge i n with hi | hi
  · exact List.map_inj_left.mp hcells i (List.mem_range.mpr hi)
  · rw [hab.eq_of_le hi, hac.eq_of_le hi]

/-! ### Heaps -/

/-- A tree on the indices with the root 0. -/
structure Tree where
  parent : ℕ → ℕ
  parent_lt : ∀ c, 0 < c → parent c < c

variable {t : Tree} {h : ℕ}

/-- No value below `n` is above that of its parent, for parents from `k` on. -/
def Ordered (t : Tree) (a : ℕ → α) (k n : ℕ) : Prop :=
  ∀ c, 0 < c → c < n → k ≤ t.parent c → a c ≤ a (t.parent c)

/-- The same with the index `h` left out; the values of its children are not above that of its
parent. -/
structure OrderedExcept (t : Tree) (a : ℕ → α) (k n h : ℕ) : Prop where
  off : ∀ c, 0 < c → c < n → k ≤ t.parent c → t.parent c ≠ h → a c ≤ a (t.parent c)
  across : ∀ c, 0 < c → c < n → t.parent c = h → 0 < h → k ≤ t.parent h → a c ≤ a (t.parent h)

theorem ordered_of_le (t : Tree) (a : ℕ → α) (hn : n ≤ k + 1) : Ordered t a k n := by
  intro c hc hcn hk
  have := t.parent_lt c hc
  omega

theorem Ordered.except (ha : Ordered t a (k + 1) n) : OrderedExcept t a k n k where
  off c hc hcn hk hne := ha c hc hcn (Nat.lt_of_le_of_ne hk (Ne.symm hne))
  across _ _ _ _ hpos hk := absurd (t.parent_lt k hpos) (Nat.not_lt.mpr hk)

theorem OrderedExcept.finish (ha : OrderedExcept t a k n h)
    (hstop : ∀ c, 0 < c → c < n → t.parent c = h → a c ≤ a h) : Ordered t a k n := by
  intro c hc hcn hk
  by_cases hp : t.parent c = h
  · rw [hp]
    exact hstop c hc hcn hp
  · exact ha.off c hc hcn hk hp

/-- The greatest child takes the place of its parent. -/
theorem OrderedExcept.move (ha : OrderedExcept t a k n h) {c : ℕ} (hc : 0 < c) (hcn : c < n)
    (hp : t.parent c = h) (hk : k ≤ h) (hlt : a h < a c)
    (hmax : ∀ d, 0 < d → d < n → t.parent d = h → a d ≤ a c) :
    OrderedExcept t (exchange a h c) k n c := by
  have hhc : h < c := hp ▸ t.parent_lt c hc
  constructor
  · intro d hd hdn hkd hpd
    have hpdd := t.parent_lt d hd
    by_cases hdh : t.parent d = h
    · rw [hdh, exchange_left]
      by_cases hdc : d = c
      · rw [hdc, exchange_right]
        exact hlt.le
      · rw [exchange_of_ne a (by omega) hdc]
        exact hmax d hd hdn hdh
    · rw [exchange_of_ne a hdh hpd]
      by_cases hd' : d = h
      · subst hd'
        rw [exchange_left]
        exact ha.across c hc hcn hp hd hkd
      · have hdc : d ≠ c := by
          rintro rfl
          exact hdh hp
        rw [exchange_of_ne a hd' hdc]
        exact ha.off d hd hdn hkd hdh
  · intro d hd hdn hpd _ _
    have hpdd := t.parent_lt d hd
    rw [hp, exchange_left, exchange_of_ne a (by omega) (by omega)]
    have hoff := ha.off d hd hdn (by omega) (by omega)
    rwa [hpd] at hoff

/-- The root of a heap has the greatest value. -/
theorem Ordered.le_root (ha : Ordered t a 0 n) (hi : i < n) : a i ≤ a 0 := by
  induction i using Nat.strong_induction_on with
  | _ i ih =>
      rcases Nat.eq_zero_or_pos i with rfl | hpos
      · exact le_rfl
      · have hp := t.parent_lt i hpos
        exact (ha i hpos hi (Nat.zero_le _)).trans (ih _ hp (hp.trans hi))

/-- Behind an exchange of the root and the last value only the root is out of order. -/
theorem Ordered.exchange_root (ha : Ordered t a 0 (j + 1)) :
    OrderedExcept t (exchange a 0 j) 0 j 0 where
  off c hc hcj _ hp := by
    have hpc := t.parent_lt c hc
    rw [exchange_of_ne a hc.ne' hcj.ne, exchange_of_ne a hp (by omega)]
    exact ha c hc (hcj.trans j.lt_succ_self) (Nat.zero_le _)
  across _ _ _ _ h0 _ := absurd h0 (lt_irrefl 0)

/-! ### Sorting -/

/-- Between two extractions: a heap below `j`, and the other values in their places. -/
structure Extracting (t : Tree) (a₀ a : ℕ → α) (j n : ℕ) : Prop where
  ordered : Ordered t a 0 j
  settled : Settled a j n
  rearranged : Rearranged n a₀ a

variable {a₀ : ℕ → α}

theorem Extracting.step (ha : Extracting t a₀ a (j + 1) n) (hj : j < n)
    (hb : Rearranged j (exchange a 0 j) b) (hord : Ordered t b 0 j) :
    Extracting t a₀ b j n where
  ordered := hord
  settled := by
    have hmax : ∀ i, i ≤ j → a i ≤ a 0 := fun i hi => ha.ordered.le_root (Nat.lt_succ_of_le hi)
    exact (ha.settled.exchange_root hmax).rearranged hb
  rearranged := by
    have hexchange := rearranged_exchange a (Nat.zero_lt_of_lt hj) hj
    exact (ha.rearranged.trans hexchange).trans (hb.mono hj.le)

end HeapOrder
