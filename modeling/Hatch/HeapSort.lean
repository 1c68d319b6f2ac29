import Mathlib.Algebra.Order.Ring.Int
import Hatch.CMachine
import Hatch.CountedLoop
import Hatch.HeapOrder

/-!
# Heap sort

`HeapSort2` of `heapsort.cpp` with its `HeapAjust`. The index of a child is computed before it is
compared with the length, so in an array of more than `2 ^ 30` elements it can be too large for an
`int`.
-/

namespace Hatch.Sort

open CMachine CountedLoop HeapOrder

/-! ### The sort -/

def largerChild (size length : ℕ) (data : ℕ → ℤ) (nChild : ℕ) : Except Fault ℕ :=
  if nChild < length - 1 then do
    let right ← index (nChild + 1)
    let x ← get size data right
    let y ← get size data nChild
    return if y < x then right else nChild
  else return nChild

def heapAjustLoop (size length : ℕ) (nTemp : ℤ) :
    ℕ → ℕ → (ℕ → ℤ) → Except Fault (ℕ → ℤ)
  | 0, _, _ => .error .noFuel
  | fuel + 1, i, data => do
      let left ← index (2 * i + 1)
      if left < length then
        let nChild ← largerChild size length data left
        let x ← get size data nChild
        if nTemp < x then
          let data ← set size data i x
          let data ← set size data nChild nTemp
          heapAjustLoop size length nTemp fuel nChild data
        else return data
      else return data

/-- `HeapAjust`; `i` grows in every round and stays below `length`. -/
def heapAjust (size : ℕ) (data : ℕ → ℤ) (i length : ℕ) : Except Fault (ℕ → ℤ) := do
  let nTemp ← get size data i
  heapAjustLoop size length nTemp (length + 1) i data

def extract (size j : ℕ) (data : ℕ → ℤ) : Except Fault (ℕ → ℤ) := do
  let temp ← get size data j
  let root ← get size data 0
  let data ← set size data j root
  let data ← set size data 0 temp
  heapAjust size data 0 j

def heapSort2 (size : ℕ) (data : ℕ → ℤ) (length : ℕ) : Except Fault (ℕ → ℤ) := do
  let data ← countdownM (length >>> 1) (fun i data => heapAjust size data i length) data
  countdownM (length - 1) (fun i data => extract size (i + 1) data) data

variable {size length i n fuel : ℕ} {data : ℕ → ℤ}

/-! ### The heap -/

def binary : Tree where
  parent c := (c - 1) / 2
  parent_lt c hc := by omega

theorem binary_child {c : ℕ} (hc : 0 < c) (hp : binary.parent c = i) :
    c = 2 * i + 1 ∨ c = 2 * i + 2 := by
  change (c - 1) / 2 = i at hp
  omega

theorem binary_parent {c : ℕ} (h : c = 2 * i + 1 ∨ c = 2 * i + 2) : binary.parent c = i := by
  change (c - 1) / 2 = i
  omega

theorem largerChild_spec (data : ℕ → ℤ) (hsize : length ≤ size) (hlen : length < 2 ^ 31)
    (hleft : 2 * i + 1 < length) :
    ∃ c, largerChild size length data (2 * i + 1) = .ok c ∧ (c = 2 * i + 1 ∨ c = 2 * i + 2) ∧
      c < length ∧ ∀ d, 0 < d → d < length → binary.parent d = i → data d ≤ data c := by
  have hleft' : 2 * i + 1 < size := hleft.trans_le hsize
  unfold largerChild
  by_cases hright : 2 * i + 1 < length - 1
  · rw [if_pos hright, index_of_lt (by omega), ok_bind, get_of_lt (by omega), ok_bind,
      get_of_lt hleft', ok_bind]
    by_cases hlt : data (2 * i + 1) < data (2 * i + 1 + 1)
    · rw [if_pos hlt]
      refine ⟨_, rfl, .inr rfl, by omega, fun d hd hdn hp => ?_⟩
      rcases binary_child hd hp with rfl | rfl
      · exact hlt.le
      · exact le_rfl
    · rw [if_neg hlt]
      refine ⟨_, rfl, .inl rfl, hleft, fun d hd hdn hp => ?_⟩
      rcases binary_child hd hp with rfl | rfl
      · exact le_rfl
      · exact not_lt.mp hlt
  · rw [if_neg hright]
    refine ⟨_, rfl, .inl rfl, hleft, fun d hd hdn hp => ?_⟩
    rcases binary_child hd hp with rfl | rfl
    · exact le_rfl
    · omega

variable {k : ℕ}

/-- The loop moves the value at `i` to a place where the heap is in order. -/
theorem heapAjustLoop_spec (hsize : length ≤ size) (hlen : length ≤ 2 ^ 30) (hi : i < length)
    (hfuel : length - i < fuel) (hk : k ≤ i) (hdata : OrderedExcept binary data k length i) :
    ∃ data', heapAjustLoop size length (data i) fuel i data = .ok data' ∧
      Ordered binary data' k length ∧ Rearranged length data data' := by
  induction fuel generalizing i data with
  | zero => exact absurd hfuel (Nat.not_lt_zero _)
  | succ fuel ih =>
      rw [heapAjustLoop, index_of_lt (by omega), ok_bind]
      by_cases hleft : 2 * i + 1 < length
      · obtain ⟨c, hc, hchild, hcn, hmax⟩ :=
          largerChild_spec data hsize (by omega) hleft
        rw [if_pos hleft, hc, ok_bind, get_of_lt (by omega), ok_bind]
        by_cases hlt : data i < data c
        · rw [if_pos hlt, set_of_lt (by omega), ok_bind, set_of_lt (by omega), ok_bind,
            update_update_eq_exchange]
          have hmove := hdata.move (by omega) hcn (binary_parent hchild) hk hlt hmax
          obtain ⟨data', hrun, hord, hre⟩ := ih hcn (by omega) (by omega) hmove
          rw [exchange_right] at hrun
          exact ⟨data', hrun, hord, (rearranged_exchange data hi hcn).trans hre⟩
        · rw [if_neg hlt]
          refine ⟨data, rfl, hdata.finish fun d hd hdn hp => ?_, .refl _ _⟩
          exact (hmax d hd hdn hp).trans (not_lt.mp hlt)
      · rw [if_neg hleft]
        refine ⟨data, rfl, hdata.finish fun d hd hdn hp => ?_, .refl _ _⟩
        have := binary_child hd hp
        omega

theorem heapAjust_spec (hsize : length ≤ size) (hlen : length ≤ 2 ^ 30) (hi : i < length)
    (hk : k ≤ i) (hdata : OrderedExcept binary data k length i) :
    ∃ data', heapAjust size data i length = .ok data' ∧
      Ordered binary data' k length ∧ Rearranged length data data' := by
  rw [heapAjust, get_of_lt (by omega)]
  exact heapAjustLoop_spec hsize hlen hi (by omega) hk hdata

theorem build_spec (data : ℕ → ℤ) (hn : n ≤ 2 ^ 30) :
    ∃ data', countdownM (n >>> 1) (fun i data => heapAjust n data i n) data = .ok data' ∧
      Ordered binary data' 0 n ∧ Rearranged n data data' := by
  have hhalf : n >>> 1 = n / 2 := Nat.shiftRight_one n
  apply countdownM_invariant fun i data' => Ordered binary data' i n ∧ Rearranged n data data'
  · rintro i data₁ hi ⟨hord, hre⟩
    obtain ⟨data₂, hrun, hord₂, hre₂⟩ := heapAjust_spec le_rfl hn (by omega) le_rfl hord.except
    exact ⟨data₂, hrun, hord₂, hre.trans hre₂⟩
  · -- a node from the half on has no children
    refine ⟨fun c hc hcn hp => ?_, .refl _ _⟩
    change n >>> 1 ≤ (c - 1) / 2 at hp
    omega

/-- The four accesses of an exchange. -/
theorem swap_bind {β : Type} {j : ℕ} (hi : i < size) (hj : j < size) (data : ℕ → ℤ)
    (next : (ℕ → ℤ) → Except Fault β) :
    (get size data i >>= fun x => get size data j >>= fun y => set size data i y >>= fun data =>
      set size data j x >>= next) = next (exchange data i j) := by
  rw [get_of_lt hi, ok_bind, get_of_lt hj, ok_bind, set_of_lt hi, ok_bind, set_of_lt hj, ok_bind,
    update_update_eq_exchange]

theorem extract_spec {data₀ : ℕ → ℤ} {j : ℕ} (hn : n ≤ 2 ^ 30) (hj : 0 < j) (hjn : j < n)
    (hdata : Extracting binary data₀ data (j + 1) n) :
    ∃ data', extract n j data = .ok data' ∧ Extracting binary data₀ data' j n := by
  rw [extract, swap_bind hjn (by omega), exchange_comm]
  obtain ⟨data', hrun, hord, hre⟩ :=
    heapAjust_spec hjn.le (by omega) hj le_rfl hdata.ordered.exchange_root
  exact ⟨data', hrun, hdata.step hjn hre hord⟩

theorem heapSort2_spec (data : ℕ → ℤ) (hn : n ≤ 2 ^ 30) :
    ∃ data', heapSort2 n data n = .ok data' ∧ Ascending data' n ∧ Rearranged n data data' := by
  obtain ⟨data₁, hbuild, hord, hre⟩ := build_spec data hn
  have hstart : Extracting binary data data₁ (n - 1 + 1) n := by
    rcases Nat.eq_zero_or_pos n with rfl | hpos
    · exact ⟨ordered_of_le _ _ le_rfl, fun i m _ _ hm => absurd hm (Nat.not_lt_zero m), hre⟩
    · rw [Nat.sub_add_cancel hpos]
      exact ⟨hord, settled_self _ _, hre⟩
  have hextract : ∃ data', countdownM (n - 1) (fun i data => extract n (i + 1) data) data₁ =
      .ok data' ∧ Extracting binary data data' (0 + 1) n := by
    apply countdownM_invariant fun i data' => Extracting binary data data' (i + 1) n
    · intro i data₂ hi hdata₂
      exact extract_spec hn (Nat.succ_pos i) (by omega) hdata₂
    · exact hstart
  obtain ⟨data', hrun, hdata'⟩ := hextract
  refine ⟨data', ?_, hdata'.settled.ascending, hdata'.rearranged⟩
  rw [heapSort2, hbuild]
  exact hrun

end Hatch.Sort
