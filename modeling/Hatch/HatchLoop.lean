import Mathlib.Data.List.Infix
import Hatch.NetCommon

/-!
# `CHatchLoop`

A list of nodes beside which the class keeps a length of its own, an `unsigned long`, which has 32
bits on Windows. `hatchIsEmpty` answers `true` where there are elements. A caller that takes the
answer by its name pops from an empty list; read the other way round it is the test a queue needs.
-/

namespace Hatch.Net

variable {α : Type}

structure CHatchLoop (α : Type) where
  listLoop : List α
  loopLength : UInt32

namespace CHatchLoop

def new : CHatchLoop α := ⟨[], 0⟩

/-- `none` is the null pointer. -/
def hatchPushBack (node : Option α) (q : CHatchLoop α) : ℤ × CHatchLoop α :=
  match node with
  | some node => (0, ⟨q.listLoop ++ [node], q.loopLength + 1⟩)
  | none => (0, q)

/-- `front` of an empty list is undefined. -/
def hatchPopFront (q : CHatchLoop α) : Option (ℤ × α × CHatchLoop α) :=
  match q.listLoop with
  | [] => none
  | temp :: rest => some (0, temp, ⟨rest, q.loopLength - 1⟩)

def hatchIsEmpty (q : CHatchLoop α) : Bool := if 0 < q.loopLength then true else false

def hatchSize (q : CHatchLoop α) : UInt32 := q.loopLength

end CHatchLoop

inductive LoopCall (α : Type)
  | pushBack (node : Option α)
  | popFront

def LoopCall.apply (s : List α × CHatchLoop α) : LoopCall α → Option (List α × CHatchLoop α)
  | pushBack node => some (s.1, (s.2.hatchPushBack node).2)
  | popFront => s.2.hatchPopFront.map fun r => (s.1 ++ [r.2.1], r.2.2)

def loopRun (calls : List (LoopCall α)) : Option (List α × CHatchLoop α) :=
  calls.foldlM LoopCall.apply ([], .new)

def LoopCall.node : LoopCall α → Option α
  | pushBack node => node
  | popFront => none

def pushed (calls : List (LoopCall α)) : List α := calls.filterMap LoopCall.node

/-- Pops are made only where `hatchIsEmpty` does not give the answer that stands for an empty
queue. -/
def PopGuarded (emptyAnswer : Bool) (calls : List (LoopCall α)) : Prop :=
  ∀ before, before ++ [.popFront] <+: calls → ∀ popped q, loopRun before = some (popped, q) →
    q.hatchIsEmpty ≠ emptyAnswer

/-- What is known of a queue after some calls: the elements popped are the oldest, and size and
test are those of the others. -/
structure QueueLaw (emptyAnswer : Bool) (calls : List (LoopCall α)) (popped : List α)
    (q : CHatchLoop α) : Prop where
  oldest : popped <+: pushed calls
  size : q.hatchSize.toNat = (pushed calls).length - popped.length
  isEmpty : q.hatchIsEmpty = emptyAnswer ↔ (pushed calls).length - popped.length = 0

/-- The law holds after all calls, and the length is never taken below 0. -/
def IsQueue (emptyAnswer : Bool) (calls : List (LoopCall α)) : Prop :=
  ∀ before, before <+: calls → ∃ popped q, loopRun before = some (popped, q) ∧
    QueueLaw emptyAnswer before popped q ∧
    (before ++ [.popFront] <+: calls → 0 < q.loopLength)

theorem CHatchLoop.hatchIsEmpty_iff (q : CHatchLoop α) :
    q.hatchIsEmpty = true ↔ 0 < q.hatchSize.toNat := by
  have hlt : (0 < q.loopLength) ↔ 0 < q.loopLength.toNat := UInt32.lt_iff_toNat_lt
  simp [hatchIsEmpty, hatchSize, hlt]

/-- Size and test cannot both be right. -/
theorem not_queueLaw_true (calls : List (LoopCall α)) (popped : List α) (q : CHatchLoop α) :
    ¬ QueueLaw true calls popped q := by
  intro law
  have hempty := law.isEmpty
  rw [q.hatchIsEmpty_iff, law.size] at hempty
  omega

theorem not_isQueue_true (calls : List (LoopCall α)) : ¬ IsQueue true calls := by
  intro hqueue
  obtain ⟨popped, q, -, law, -⟩ := hqueue calls List.prefix_rfl
  exact not_queueLaw_true calls popped q law

/-- The sequences in which the answer is taken by the name of the test. -/
structure GuardedCalls (α : Type) where
  calls : List (LoopCall α)
  guarded : PopGuarded true calls

/-- No guarded sequence of calls uses the class as a queue. -/
theorem guardedCalls_not_isQueue (c : GuardedCalls α) : ¬ IsQueue true c.calls :=
  not_isQueue_true c.calls

theorem loopRun_concat (before : List (LoopCall α)) (c : LoopCall α) :
    loopRun (before ++ [c]) = (loopRun before).bind fun s => c.apply s := by
  simp [loopRun, List.foldlM_append]

theorem pushed_concat (before : List (LoopCall α)) (c : LoopCall α) :
    pushed (before ++ [c]) = pushed before ++ c.node.toList := by
  cases hnode : c.node <;> simp [pushed, hnode]

/-- The pop that the test admits on a new object has no element to return. -/
theorem guarded_popFront_undefined :
    PopGuarded true ([.popFront] : List (LoopCall ℕ)) ∧
      loopRun ([.popFront] : List (LoopCall ℕ)) = none ∧
      ¬ IsQueue true ([.popFront] : List (LoopCall ℕ)) := by
  refine ⟨?_, rfl, not_isQueue_true _⟩
  intro before hbefore popped q hrun
  have hlength := hbefore.length_le
  obtain rfl : before = [] := by
    rw [← List.length_eq_zero_iff]
    simp only [List.length_append, List.length_singleton] at hlength
    omega
  cases hrun
  decide

section OtherWayRound

/-! ### The test read the other way round -/

/-- The length is that of the list, which holds what has not been popped. -/
structure LoopInv (calls : List (LoopCall α)) (popped : List α) (q : CHatchLoop α) : Prop where
  content : popped ++ q.listLoop = pushed calls
  length : q.loopLength.toNat = q.listLoop.length

variable {calls : List (LoopCall α)} {popped : List α} {q : CHatchLoop α}

theorem loopInv_new : LoopInv ([] : List (LoopCall α)) [] .new := ⟨rfl, rfl⟩

theorem LoopInv.queueLaw (inv : LoopInv calls popped q) : QueueLaw false calls popped q := by
  have hheld : (pushed calls).length - popped.length = q.hatchSize.toNat := by
    rw [← inv.content, List.length_append, CHatchLoop.hatchSize, inv.length]
    omega
  refine ⟨⟨q.listLoop, inv.content⟩, hheld.symm, ?_⟩
  rw [hheld, ← Bool.not_eq_true, q.hatchIsEmpty_iff]
  omega

theorem LoopInv.pushBack (inv : LoopInv calls popped q) (node : Option α)
    (hroom : (pushed (calls ++ [.pushBack node])).length < 2 ^ 32) :
    LoopInv (calls ++ [.pushBack node]) popped (q.hatchPushBack node).2 := by
  rw [pushed_concat, ← inv.content] at hroom
  cases node with
  | none =>
    refine ⟨?_, inv.length⟩
    simp [pushed_concat, LoopCall.node, CHatchLoop.hatchPushBack, inv.content]
  | some node =>
    simp only [LoopCall.node, Option.toList_some, List.length_append,
      List.length_singleton] at hroom
    refine ⟨?_, ?_⟩
    · simp [pushed_concat, LoopCall.node, CHatchLoop.hatchPushBack, ← inv.content]
    · have hlength := inv.length
      simp only [CHatchLoop.hatchPushBack, UInt32.toNat_add, UInt32.toNat_one, List.length_append,
        List.length_singleton]
      omega

theorem LoopInv.popFront (inv : LoopInv calls popped q) (hnonempty : q.hatchIsEmpty = true) :
    ∃ node rest, q.hatchPopFront = some (0, node, rest) ∧
      LoopInv (calls ++ [.popFront]) (popped ++ [node]) rest := by
  rw [q.hatchIsEmpty_iff, CHatchLoop.hatchSize, inv.length] at hnonempty
  obtain ⟨node, rest, hlist⟩ := List.exists_cons_of_length_pos hnonempty
  refine ⟨node, ⟨rest, q.loopLength - 1⟩, by simp [CHatchLoop.hatchPopFront, hlist], ?_, ?_⟩
  · simp [pushed_concat, LoopCall.node, ← inv.content, hlist]
  · change (q.loopLength - 1).toNat = rest.length
    have hlength := inv.length
    rw [hlist, List.length_cons] at hlength
    have hle : (1 : UInt32) ≤ q.loopLength := by
      rw [UInt32.le_iff_toNat_le, UInt32.toNat_one]
      omega
    rw [UInt32.toNat_sub_of_le _ _ hle, UInt32.toNat_one]
    omega

/-- Whole runs: by induction on the calls made, the last one first, since guard and law are about
the object as the calls before left it. -/
theorem loopInv_of_guarded (hguarded : PopGuarded false calls)
    (hroom : (pushed calls).length < 2 ^ 32) (before : List (LoopCall α))
    (hbefore : before <+: calls) :
    ∃ popped q, loopRun before = some (popped, q) ∧ LoopInv before popped q := by
  induction before using List.reverseRecOn with
  | nil => exact ⟨[], .new, rfl, loopInv_new⟩
  | append_singleton before c ih =>
    obtain ⟨popped, q, hrun, inv⟩ := ih ((List.prefix_append before [c]).trans hbefore)
    cases c with
    | pushBack node =>
      refine ⟨popped, (q.hatchPushBack node).2, ?_, ?_⟩
      · rw [loopRun_concat, hrun]
        rfl
      · exact inv.pushBack node ((hbefore.filterMap LoopCall.node).length_le.trans_lt hroom)
    | popFront =>
      have hnonempty : q.hatchIsEmpty = true := by
        simpa using hguarded before hbefore popped q hrun
      obtain ⟨node, rest, hpop, hinv⟩ := inv.popFront hnonempty
      refine ⟨popped ++ [node], rest, ?_, hinv⟩
      rw [loopRun_concat, hrun, Option.bind_some, LoopCall.apply, hpop]
      rfl

/-- Where an answer of `false` is taken for an empty queue the class is one, as long as the length
does not overflow. -/
theorem isQueue_false (hguarded : PopGuarded false calls) (hroom : (pushed calls).length < 2 ^ 32) :
    IsQueue false calls := by
  intro before hbefore
  obtain ⟨popped, q, hrun, inv⟩ := loopInv_of_guarded hguarded hroom before hbefore
  refine ⟨popped, q, hrun, inv.queueLaw, ?_⟩
  intro hpop
  have hnonempty : q.hatchIsEmpty = true := by simpa using hguarded before hpop popped q hrun
  rw [q.hatchIsEmpty_iff] at hnonempty
  exact UInt32.lt_iff_toNat_lt.mpr hnonempty

end OtherWayRound

end Hatch.Net
