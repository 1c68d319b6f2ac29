import Hatch.HeapSort

/-!
# The other heap sort

`createHeap` and `heapSort` of `heapsort.cpp`. In `(nodei+1) << 1 - 1` the subtraction comes first,
so the left child of a node is the next index and the tree is a chain, in which the right child is
never the greater one: `maxHeapify` inserts an element into a descending sequence. `createHeap`
starts at the length, since `arrLength>>1-1` is no half of it.
-/

namespace Hatch.Sort

open CMachine CountedLoop HeapOrder

/-- `arraysize`, which is set in a comment only. -/
def arraysize : ℕ := 0

structure Heap where
  arr : ℕ → ℤ
  heapMaxIndex : ℤ
  arrLength : ℤ

def unsigned (x : ℤ) : ℕ := (x % 2 ^ 32).toNat

def printLevel (size : ℕ) (arr : ℕ → ℤ) : ℕ → ℕ → Except Fault ℕ
  | 0, i => .ok i
  | j + 1, i => do
      let _ ← get size arr i
      printLevel size arr j (i + 1)

def printLevels (size : ℕ) (arr : ℕ → ℤ) (length : ℕ) : ℕ → ℕ → ℕ → Except Fault Unit
  | 0, _, _ => .error .noFuel
  | fuel + 1, level, i =>
      if i < length then do
        let i ← printLevel size arr level i
        printLevels size arr length fuel (level + 1) i
      else return ()

/-- `Printfbtree`, of which only the accesses matter. -/
def printfbtree (size : ℕ) (arr : ℕ → ℤ) (length : ℕ) : Except Fault Unit :=
  printLevels size arr length (length + 1) 1 0

def largerOf (size : ℕ) (arr : ℕ → ℤ) (heapMaxI child node : ℕ) : Except Fault ℕ :=
  if child ≤ heapMaxI then do
    let x ← get size arr child
    let y ← get size arr node
    return if y < x then child else node
  else return node

def largestOf (size : ℕ) (hp : Heap) (nodei : ℕ) : Except Fault ℕ := do
  let l := ((nodei + 1) % 2 ^ 32) <<< (1 - 1) % 2 ^ 32
  let r := ((nodei + 1) % 2 ^ 32) <<< 1 % 2 ^ 32
  let heapMaxI := unsigned hp.heapMaxIndex
  let largest ← largerOf size hp.arr heapMaxI l nodei
  largerOf size hp.arr heapMaxI r largest

def maxHeapifyRec (size : ℕ) : ℕ → Heap → ℕ → Except Fault Heap
  | 0, _, _ => .error .noFuel
  | fuel + 1, hp, nodei => do
      printfbtree size hp.arr arraysize
      let largest ← largestOf size hp nodei
      if largest ≠ nodei then
        let tmp ← get size hp.arr largest
        let x ← get size hp.arr nodei
        let arr ← set size hp.arr largest x
        let arr ← set size arr nodei tmp
        maxHeapifyRec size fuel { hp with arr := arr } largest
      else return hp

/-- `maxHeapify`; its argument grows from call to call. -/
def maxHeapify (size : ℕ) (hp : Heap) (nodei : ℕ) : Except Fault Heap :=
  maxHeapifyRec size (size + 1) hp nodei

def createHeap (size : ℕ) (arrp : ℕ → ℤ) (arrLength : ℕ) : Except Fault Heap :=
  countdownM (arrLength >>> (1 - 1) + 1) (fun i hp => maxHeapify size hp i)
    { arr := arrp, heapMaxIndex := arrLength - 1, arrLength := arrLength }

def heapSortLoop (size : ℕ) : ℕ → Heap → Except Fault Heap
  | 0, _ => .error .noFuel
  | fuel + 1, hp =>
      if 0 < hp.heapMaxIndex then do
        let last := hp.heapMaxIndex.toNat
        let tmp ← get size hp.arr last
        let root ← get size hp.arr 0
        let arr ← set size hp.arr last root
        let arr ← set size arr 0 tmp
        let hp ← maxHeapify size { hp with arr := arr, heapMaxIndex := hp.heapMaxIndex - 1 } 0
        heapSortLoop size fuel hp
      else return hp

/-- `heapSort`; the index of the last element falls in every round. -/
def heapSort (size : ℕ) (hp : Heap) : Except Fault Heap :=
  heapSortLoop size (hp.heapMaxIndex.toNat + 1) hp

variable {size n i k fuel : ℕ} {hp : Heap} {data₀ : ℕ → ℤ}

/-! ### The order that is kept -/

/-- Every node has the next one as its child. -/
def chain : Tree where
  parent c := c - 1
  parent_lt _ hc := Nat.sub_lt hc Nat.one_pos

theorem chain_child {c : ℕ} (hc : 0 < c) (hp : chain.parent c = i) : c = i + 1 := by
  change c - 1 = i at hp
  omega

/-- Behind the index left out, values do not grow. -/
theorem OrderedExcept.chain_le {arr : ℕ → ℤ} (h : OrderedExcept chain arr k n i) (hk : k ≤ i)
    {c : ℕ} (hc : i + 1 ≤ c) (hcn : c < n) : arr c ≤ arr (i + 1) := by
  induction c, hc using Nat.le_induction with
  | base => exact le_rfl
  | succ c hc ih =>
      have hstep := h.off (c + 1) (Nat.succ_pos c) hcn (hk.trans (Nat.le_of_succ_le hc))
        (Nat.ne_of_gt hc)
      exact hstep.trans (ih (Nat.lt_of_succ_lt hcn))

theorem largerOf_of_le {arr : ℕ → ℤ} {heapMaxI child node : ℕ} (hsize : heapMaxI < size)
    (hchild : child ≤ heapMaxI) (hnode : node ≤ heapMaxI) :
    largerOf size arr heapMaxI child node =
      .ok (if arr node < arr child then child else node) := by
  rw [largerOf, if_pos hchild, get_of_lt (by omega), ok_bind, get_of_lt (by omega)]
  rfl

theorem largerOf_of_lt {arr : ℕ → ℤ} {heapMaxI child node : ℕ} (hchild : heapMaxI < child) :
    largerOf size arr heapMaxI child node = .ok node := by
  rw [largerOf, if_neg (Nat.not_le.mpr hchild)]
  rfl

/-- The next index or the node itself is chosen. -/
theorem largestOf_eq (hsize : n ≤ size) (hn : 0 < n) (hsmall : size < 2 ^ 30) (hi : i ≤ size)
    (hmax : hp.heapMaxIndex = n - 1) (hk : k ≤ i) (h : OrderedExcept chain hp.arr k n i) :
    largestOf size hp i = .ok (if i + 1 < n ∧ hp.arr i < hp.arr (i + 1) then i + 1 else i) := by
  have hl : ((i + 1) % 2 ^ 32) <<< (1 - 1) % 2 ^ 32 = i + 1 := by
    rw [Nat.sub_self, Nat.shiftLeft_zero]
    omega
  have hr : ((i + 1) % 2 ^ 32) <<< 1 % 2 ^ 32 = 2 * i + 2 := by
    rw [Nat.shiftLeft_eq]
    omega
  have hM : unsigned hp.heapMaxIndex = n - 1 := by
    rw [unsigned, hmax]
    omega
  unfold largestOf
  simp only [hl, hr, hM]
  by_cases hin : i + 1 < n
  · have hright : ∀ {c}, 2 * i + 2 < n → hp.arr (i + 1) ≤ hp.arr c →
        ¬ hp.arr c < hp.arr (2 * i + 2) :=
      fun hrn hc => not_lt.mpr ((OrderedExcept.chain_le h hk (by omega) hrn).trans hc)
    rw [largerOf_of_le (by omega) (by omega) (by omega), ok_bind]
    by_cases hlt : hp.arr i < hp.arr (i + 1)
    · rw [if_pos hlt, if_pos ⟨hin, hlt⟩]
      by_cases hrn : 2 * i + 2 < n
      · rw [largerOf_of_le (by omega) (by omega) (by omega), if_neg (hright hrn le_rfl)]
      · exact largerOf_of_lt (by omega)
    · rw [if_neg hlt, if_neg (fun hc => hlt hc.2)]
      by_cases hrn : 2 * i + 2 < n
      · rw [largerOf_of_le (by omega) (by omega) (by omega), if_neg (hright hrn (not_lt.mp hlt))]
      · exact largerOf_of_lt (by omega)
  · rw [largerOf_of_lt (by omega), ok_bind, largerOf_of_lt (by omega), if_neg (fun hc => hin hc.1)]

/-- A node is moved along the chain to its place. -/
theorem maxHeapifyRec_spec (hp : Heap) (hsize : n ≤ size) (hn : 0 < n) (hsmall : size < 2 ^ 30)
    (hi : i ≤ size) (hfuel : n - i < fuel) (hmax : hp.heapMaxIndex = n - 1) (hk : k ≤ i)
    (h : OrderedExcept chain hp.arr k n i) :
    ∃ arr, maxHeapifyRec size fuel hp i = .ok { hp with arr := arr } ∧
      Ordered chain arr k n ∧ Rearranged n hp.arr arr := by
  induction fuel generalizing i hp with
  | zero => exact absurd hfuel (Nat.not_lt_zero _)
  | succ fuel ih =>
      have hprint : printfbtree size hp.arr arraysize = .ok () := rfl
      rw [maxHeapifyRec, hprint, ok_bind, largestOf_eq hsize hn hsmall hi hmax hk h, ok_bind]
      by_cases hc : i + 1 < n ∧ hp.arr i < hp.arr (i + 1)
      · have hmove := h.move (Nat.succ_pos i) hc.1 rfl hk hc.2 fun d hd _ hp' => by
          rw [chain_child hd hp']
        rw [if_pos hc, if_pos (Nat.succ_ne_self i), swap_bind (by omega) (by omega),
          exchange_comm]
        obtain ⟨arr, hrun, hord, hre⟩ := ih { hp with arr := exchange hp.arr i (i + 1) }
          (by omega) (by omega) hmax (by omega) hmove
        exact ⟨arr, hrun, hord, (rearranged_exchange hp.arr (by omega) hc.1).trans hre⟩
      · rw [if_neg hc, if_neg (not_not.mpr rfl)]
        refine ⟨hp.arr, rfl, h.finish fun d hd hdn hp' => ?_, .refl _ _⟩
        obtain rfl := chain_child hd hp'
        exact not_lt.mp fun hlt => hc ⟨hdn, hlt⟩

theorem maxHeapify_spec (hp : Heap) (hsize : n ≤ size) (hn : 0 < n) (hsmall : size < 2 ^ 30)
    (hi : i ≤ size) (hmax : hp.heapMaxIndex = n - 1) (hk : k ≤ i)
    (h : OrderedExcept chain hp.arr k n i) :
    ∃ arr, maxHeapify size hp i = .ok { hp with arr := arr } ∧
      Ordered chain arr k n ∧ Rearranged n hp.arr arr :=
  maxHeapifyRec_spec hp hsize hn hsmall hi (by omega) hmax hk h

/-! ### The sort -/

theorem createHeap_spec (data : ℕ → ℤ) (hn : 0 < n) (hsmall : n < 2 ^ 30) :
    ∃ hp, createHeap n data n = .ok hp ∧ Ordered chain hp.arr 0 n ∧ Rearranged n data hp.arr ∧
      hp.heapMaxIndex = n - 1 := by
  apply countdownM_invariant fun i (hp : Heap) =>
    Ordered chain hp.arr i n ∧ Rearranged n data hp.arr ∧ hp.heapMaxIndex = n - 1
  · rintro i hp hi ⟨hord, hre, hmax⟩
    rw [Nat.sub_self, Nat.shiftRight_zero] at hi
    obtain ⟨arr, hrun, hord', hre'⟩ :=
      maxHeapify_spec hp le_rfl hn hsmall (Nat.lt_succ_iff.mp hi) hmax le_rfl hord.except
    exact ⟨_, hrun, hord', hre.trans hre', hmax⟩
  · refine ⟨ordered_of_le chain data ?_, .refl _ _, rfl⟩
    rw [Nat.sub_self, Nat.shiftRight_zero]
    omega

theorem heapSortLoop_spec (fuel : ℕ) {m : ℕ} (hmn : m < n) (hsmall : n < 2 ^ 30) (hfuel : m < fuel)
    (hmax : hp.heapMaxIndex = m) (h : Extracting chain data₀ hp.arr (m + 1) n) :
    ∃ hp', heapSortLoop n fuel hp = .ok hp' ∧ Extracting chain data₀ hp'.arr 1 n := by
  induction m generalizing fuel hp with
  | zero =>
      obtain ⟨fuel, rfl⟩ := Nat.exists_eq_succ_of_ne_zero (Nat.ne_of_gt hfuel)
      refine ⟨hp, ?_, h⟩
      rw [heapSortLoop, if_neg (by simp [hmax])]
      rfl
  | succ m ih =>
      obtain ⟨fuel, rfl⟩ := Nat.exists_eq_succ_of_ne_zero (Nat.ne_zero_of_lt hfuel)
      have hpos : 0 < hp.heapMaxIndex := by
        rw [hmax]
        omega
      have hlast : hp.heapMaxIndex.toNat = m + 1 := by
        rw [hmax]
        rfl
      rw [heapSortLoop, if_pos hpos]
      dsimp only
      rw [hlast, swap_bind hmn (by omega), exchange_comm]
      obtain ⟨arr, hrun, hord, hre⟩ := maxHeapify_spec
        { hp with arr := exchange hp.arr 0 (m + 1), heapMaxIndex := hp.heapMaxIndex - 1 }
        hmn.le (Nat.succ_pos m) hsmall (Nat.zero_le n) (by simp [hmax]) le_rfl
        h.ordered.exchange_root
      rw [hrun, ok_bind]
      exact ih fuel (by omega) (by omega) (by simp [hmax]) (h.step hmn hre hord)

/-- `createHeap` and `heapSort` sort an array as `HeapSort2` does. -/
theorem heapSort_agrees (data : ℕ → ℤ) (n : ℕ) (hn : 0 < n) (hsmall : n < 2 ^ 30) :
    ∃ hp hp', createHeap n data n = .ok hp ∧ heapSort n hp = .ok hp' ∧
      heapSort2 n data n = .ok hp'.arr := by
  obtain ⟨hp, hcreate, hord, hre, hmax⟩ := createHeap_spec data hn hsmall
  obtain ⟨m, rfl⟩ := Nat.exists_eq_succ_of_ne_zero hn.ne'
  have hmax' : hp.heapMaxIndex = m := by simp [hmax]
  obtain ⟨hp', hsort, hdone⟩ := heapSortLoop_spec (hp.heapMaxIndex.toNat + 1)
    m.lt_succ_self hsmall (by simp [hmax']) hmax' ⟨hord, settled_self _ _, hre⟩
  obtain ⟨data', hsort2, hasc, hre2⟩ := heapSort2_spec data hsmall.le
  refine ⟨hp, hp', hcreate, hsort, ?_⟩
  rw [hsort2, hasc.eq hdone.settled.ascending hre2 hdone.rearranged]

def sixInts (i : ℕ) : ℤ := [15, 25, 32, 23, 1, -4].getD i 0

theorem heapSort_agrees_sixInts :
    (0 < 6 ∧ 6 < 2 ^ 30) ∧
      ∃ hp hp', createHeap 6 sixInts 6 = .ok hp ∧ heapSort 6 hp = .ok hp' ∧
        heapSort2 6 sixInts 6 = .ok hp'.arr :=
  ⟨⟨by decide, by decide⟩, heapSort_agrees sixInts 6 (by decide) (by decide)⟩

example : (createHeap 6 sixInts 6).map (fun hp => cells hp.arr 6) =
    .ok [32, 25, 23, 15, 1, -4] := by rfl

end Hatch.Sort
