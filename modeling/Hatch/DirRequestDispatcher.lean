import Hatch.Inevitability
import Mathlib.Data.Nat.Notation

/-!
# The request dispatcher in Java

The thread of `DirRequestDispatcher` tests `quit`, takes a request and processes it. `take` of
`LinkedBlockingQueue` tests the interrupt when it locks the queue and while it waits, and not when
it finds a request. `shutdown` sets `quit` and then interrupts the thread; any number of threads
may call it, and `ReceiveRecord`, at any time. An exception of `ProcessRequest` ends the thread and
sets `quit`.
-/

namespace Hatch.DirRequestDispatcher

open TransitionSystem

inductive Stage (R : Type) where
  | testing
  | entering
  | checking
  | processing (rq : R)
  | returned
  deriving DecidableEq

/-- `pending` calls of `shutdown` have set `quit` and not yet interrupted the thread, `finished`
ones have. -/
structure State (R : Type) where
  quit : Bool
  interrupted : Bool
  pending : ℕ
  finished : ℕ
  queue : List R
  stage : Stage R
  received : List R
  processed : List R
  deriving DecidableEq

inductive Action (R : Type) where
  | receiveRecord (rq : R)
  | setQuit
  | interrupt
  | testQuit
  | lock
  | take
  | process
  | fail

variable {R : Type}

/-- An interrupt ends `run`, and the exception clears it. -/
def State.interruptedException (s : State R) : State R :=
  { s with interrupted := false, stage := .returned }

def runStep (s : State R) : Action R → Option (State R)
  | .testQuit => match s.stage with
      | .testing => some { s with stage := if s.quit then .returned else .entering }
      | _ => none
  | .lock => match s.stage with
      | .entering =>
          some (if s.interrupted then s.interruptedException else { s with stage := .checking })
      | _ => none
  | .take => match s.stage, s.queue with
      | .checking, rq :: queue => some { s with stage := .processing rq, queue := queue }
      | .checking, [] => if s.interrupted then some s.interruptedException else none
      | _, _ => none
  | .process => match s.stage with
      | .processing rq => some { s with stage := .testing, processed := s.processed ++ [rq] }
      | _ => none
  | .fail => match s.stage with
      | .processing _ => some { s with stage := .returned, quit := true }
      | _ => none
  | _ => none

/-- The steps of the callers. The queue holds at most `Integer.MAX_VALUE` requests. -/
def callerStep (s : State R) : Action R → Option (State R)
  | .receiveRecord rq =>
      if s.queue.length < 0x7fffffff then
        some { s with queue := s.queue ++ [rq], received := s.received ++ [rq] }
      else none
  | .setQuit => some { s with quit := true, pending := s.pending + 1 }
  | .interrupt => match s.pending with
      | pending + 1 =>
          some { s with interrupted := true, pending := pending, finished := s.finished + 1 }
      | 0 => none
  | _ => none

def step (s : State R) (a : Action R) : Option (State R) := (runStep s a).or (callerStep s a)

def start : State R where
  quit := false
  interrupted := false
  pending := 0
  finished := 0
  queue := []
  stage := .testing
  received := []
  processed := []

def dispatcher : Machine (State R) (Action R) where
  init s := s = start
  step := step

inductive Change (s : State R) : Action R → State R → Prop
  | testQuit (h : s.stage = .testing) :
      Change s .testQuit { s with stage := if s.quit then .returned else .entering }
  | lock (h : s.stage = .entering) (hi : s.interrupted = false) :
      Change s .lock { s with stage := .checking }
  | lockInterrupted (h : s.stage = .entering) (hi : s.interrupted = true) :
      Change s .lock s.interruptedException
  | take {rq : R} {queue : List R} (h : s.stage = .checking) (hq : s.queue = rq :: queue) :
      Change s .take { s with stage := .processing rq, queue := queue }
  | takeInterrupted (h : s.stage = .checking) (hq : s.queue = []) (hi : s.interrupted = true) :
      Change s .take s.interruptedException
  | process {rq : R} (h : s.stage = .processing rq) :
      Change s .process { s with stage := .testing, processed := s.processed ++ [rq] }
  | fail {rq : R} (h : s.stage = .processing rq) :
      Change s .fail { s with stage := .returned, quit := true }
  | receiveRecord (rq : R) : Change s (.receiveRecord rq)
      { s with queue := s.queue ++ [rq], received := s.received ++ [rq] }
  | setQuit : Change s .setQuit { s with quit := true, pending := s.pending + 1 }
  | interrupt {n : ℕ} (h : s.pending = n + 1) : Change s .interrupt
      { s with interrupted := true, pending := n, finished := s.finished + 1 }

section Steps

variable {s t : State R} {a : Action R}

theorem change_of_runStep (h : runStep s a = some t) : Change s a t := by
  cases a with
  | testQuit | process | fail =>
      simp only [runStep] at h
      split at h
      · next hs =>
        cases h
        constructor
        exact hs
      · cases h
  | lock =>
      simp only [runStep] at h
      split at h
      · next hs =>
        cases h
        split
        · next hi => exact .lockInterrupted hs hi
        · next hi => exact .lock hs (by simpa using hi)
      · cases h
  | take =>
      simp only [runStep] at h
      split at h
      · next hs hq => exact Option.some.inj h ▸ .take hs hq
      · next hs hq =>
        split at h
        · next hi => exact Option.some.inj h ▸ .takeInterrupted hs hq hi
        · cases h
      · cases h
  | receiveRecord | setQuit | interrupt => cases h

theorem change_of_callerStep (h : callerStep s a = some t) : Change s a t := by
  cases a with
  | receiveRecord rq =>
      simp only [callerStep] at h
      split at h
      · exact Option.some.inj h ▸ .receiveRecord rq
      · cases h
  | setQuit => exact Option.some.inj h ▸ .setQuit
  | interrupt =>
      simp only [callerStep] at h
      split at h
      · next hp => exact Option.some.inj h ▸ .interrupt hp
      · cases h
  | testQuit | lock | take | process | fail => cases h

theorem change_of_step (h : step s a = some t) : Change s a t := by
  rcases Option.or_eq_some_iff.mp h with h | ⟨-, h⟩
  · exact change_of_runStep h
  · exact change_of_callerStep h

end Steps

def Stage.inHand : Stage R → List R
  | .processing rq => [rq]
  | _ => []

/-- Requests are processed in the order in which they were received, and after a `shutdown` the
thread is interrupted or has returned. -/
structure Inv (s : State R) : Prop where
  order : s.processed <+: s.received
  conserved : s.stage ≠ .returned → s.received = s.processed ++ s.stage.inHand ++ s.queue
  pending : 0 < s.pending → s.quit = true
  quit : 0 < s.finished → s.quit = true
  interrupted : 0 < s.finished → s.interrupted = true ∨ s.stage = .returned

theorem inv_start : Inv (start : State R) :=
  ⟨List.nil_prefix, fun _ => rfl, nofun, nofun, nofun⟩

section Invariant

variable {s t : State R} {a : Action R}

/-- The exception keeps everything but the stage and the interrupt. -/
theorem Inv.returned (h : Inv s) {b q : Bool} (hq : s.quit = true → q = true) :
    Inv { s with interrupted := b, quit := q, stage := .returned } :=
  ⟨h.order, fun hne => absurd rfl hne, fun hp => hq (h.pending hp), fun hf => hq (h.quit hf),
    fun _ => .inr rfl⟩

/-- A step of `run` from a stage with nothing in hand to another one. -/
theorem Inv.setStage (h : Inv s) {st : Stage R} (hs : s.stage ≠ .returned)
    (hh : st.inHand = s.stage.inHand) : Inv { s with stage := st } := by
  refine ⟨h.order, fun _ => ?_, h.pending, h.quit, fun hf => ?_⟩
  · rw [h.conserved hs, hh]
  · exact .inl ((h.interrupted hf).resolve_right hs)

theorem Inv.step (h : Inv s) (he : DirRequestDispatcher.step s a = some t) : Inv t := by
  cases change_of_step he with
  | testQuit hs =>
      refine h.setStage (by rw [hs]; nofun) ?_
      rw [hs]
      cases s.quit <;> rfl
  | lock hs => exact h.setStage (by rw [hs]; nofun) (by rw [hs]; rfl)
  | lockInterrupted | takeInterrupted => exact h.returned id
  | fail => exact h.returned (fun _ => rfl)
  | take hs hq =>
      have hc := h.conserved (by rw [hs]; nofun)
      rw [hs, hq] at hc
      refine ⟨h.order, fun _ => ?_, h.pending, h.quit, fun hf => ?_⟩
      · rw [hc, List.append_assoc, List.append_assoc]
        rfl
      · exact .inl ((h.interrupted hf).resolve_right (by rw [hs]; nofun))
  | process hs =>
      have hc := h.conserved (by rw [hs]; nofun)
      rw [hs] at hc
      refine ⟨⟨s.queue, hc.symm⟩, fun _ => ?_, h.pending, h.quit, fun hf => ?_⟩
      · rw [hc]
        exact (congrArg (· ++ s.queue) (List.append_nil _)).symm
      · exact .inl ((h.interrupted hf).resolve_right (by rw [hs]; nofun))
  | receiveRecord rq =>
      refine ⟨h.order.trans (List.prefix_append ..), fun hs => ?_, h.pending, h.quit,
        h.interrupted⟩
      change s.received ++ [rq] = s.processed ++ s.stage.inHand ++ (s.queue ++ [rq])
      rw [h.conserved hs, List.append_assoc _ s.queue]
  | setQuit => exact ⟨h.order, h.conserved, fun _ => rfl, fun _ => rfl, h.interrupted⟩
  | interrupt hp =>
      have hq := h.pending (by omega)
      exact ⟨h.order, h.conserved, fun _ => hq, fun _ => hq, fun _ => .inl rfl⟩

theorem Inv.of_reaches {G : State R → Action R → Prop} (h : Reaches dispatcher G s) : Inv s := by
  refine h.invariant ?_ ?_
  · rintro _ rfl
    exact inv_start
  · intro s a t hs _ he
    exact hs.step he

end Invariant

def Own (_ : State R) : Action R → Prop
  | .testQuit | .lock | .take | .process | .fail => True
  | .receiveRecord _ | .setQuit | .interrupt => False

instance (s : State R) (a : Action R) : Decidable (Own s a) :=
  match a with
  | .testQuit | .lock | .take | .process | .fail => .isTrue trivial
  | .receiveRecord _ | .setQuit | .interrupt => .isFalse id

/-- The steps of `run` before it returns. -/
def Stage.left : Stage R → ℕ
  | .entering => 4
  | .checking => 3
  | .processing _ => 2
  | .testing => 1
  | .returned => 0

section Shutdown

variable {s t : State R} {a : Action R}

/-- A call of `shutdown` has returned. -/
structure Ending (s : State R) : Prop where
  inv : Inv s
  finished : 0 < s.finished

theorem Ending.interrupted (h : Ending s) (hs : s.stage ≠ .returned) : s.interrupted = true :=
  (h.inv.interrupted h.finished).resolve_right hs

theorem Ending.step (h : Ending s) (hg : Own s a)
    (he : DirRequestDispatcher.step s a = some t) : Ending t ∧ t.stage.left < s.stage.left := by
  have hi := h.inv.step he
  have hq := h.inv.quit h.finished
  cases change_of_step he with
  | testQuit hs =>
      rw [hs]
      refine ⟨⟨hi, h.finished⟩, ?_⟩
      change (if s.quit then _ else _ : Stage R).left < 1
      rw [if_pos hq]
      exact Nat.zero_lt_one
  | lock hs hf =>
      rw [h.interrupted (by rw [hs]; nofun)] at hf
      cases hf
  | lockInterrupted hs =>
      rw [hs]
      exact ⟨⟨hi, h.finished⟩, Nat.succ_pos 3⟩
  | take hs =>
      rw [hs]
      exact ⟨⟨hi, h.finished⟩, Nat.lt_succ_self 2⟩
  | takeInterrupted hs =>
      rw [hs]
      exact ⟨⟨hi, h.finished⟩, Nat.succ_pos 2⟩
  | process hs =>
      rw [hs]
      exact ⟨⟨hi, h.finished⟩, Nat.lt_succ_self 1⟩
  | fail hs =>
      rw [hs]
      exact ⟨⟨hi, h.finished⟩, Nat.succ_pos 1⟩
  | receiveRecord | setQuit | interrupt => exact hg.elim

theorem Ending.enabled (h : Ending s) (hs : s.stage ≠ .returned) :
    ∃ a t, Own s a ∧ DirRequestDispatcher.step s a = some t := by
  have hi := h.interrupted hs
  cases hst : s.stage with
  | testing => exact ⟨.testQuit, _, trivial, by simp [DirRequestDispatcher.step, runStep, hst]; rfl⟩
  | entering => exact ⟨.lock, _, trivial, by simp [DirRequestDispatcher.step, runStep, hst]; rfl⟩
  | checking =>
      cases hq : s.queue with
      | nil =>
          exact ⟨.take, _, trivial, by simp [DirRequestDispatcher.step, runStep, hst, hq, hi]; rfl⟩
      | cons rq queue =>
          exact ⟨.take, _, trivial, by simp [DirRequestDispatcher.step, runStep, hst, hq]; rfl⟩
  | processing rq =>
      exact ⟨.process, _, trivial, by simp [DirRequestDispatcher.step, runStep, hst]; rfl⟩
  | returned => exact absurd hst hs

def Stage.more : Stage R → ℕ
  | .entering | .checking | .processing _ => 1
  | .testing | .returned => 0

theorem quit_step (hq : s.quit = true) (he : DirRequestDispatcher.step s a = some t) :
    t.quit = true ∧
      ∃ l, t.processed = s.processed ++ l ∧ l.length + t.stage.more ≤ s.stage.more := by
  cases change_of_step he with
  | testQuit hs =>
      refine ⟨hq, [], (List.append_nil _).symm, ?_⟩
      change 0 + (if s.quit then _ else _ : Stage R).more ≤ _
      rw [if_pos hq]
      exact Nat.zero_le _
  | lock hs => exact ⟨hq, [], (List.append_nil _).symm, by rw [hs]; exact Nat.le_refl 1⟩
  | take hs => exact ⟨hq, [], (List.append_nil _).symm, by rw [hs]; exact Nat.le_refl 1⟩
  | lockInterrupted | takeInterrupted =>
      exact ⟨hq, [], (List.append_nil _).symm, Nat.zero_le _⟩
  | process hs => exact ⟨hq, [_], rfl, by rw [hs]; exact Nat.le_refl 1⟩
  | fail => exact ⟨rfl, [], (List.append_nil _).symm, Nat.zero_le _⟩
  | receiveRecord => exact ⟨hq, [], (List.append_nil _).symm, (Nat.zero_add _).le⟩
  | setQuit => exact ⟨rfl, [], (List.append_nil _).symm, (Nat.zero_add _).le⟩
  | interrupt => exact ⟨hq, [], (List.append_nil _).symm, (Nat.zero_add _).le⟩

theorem quit_path {G : State R → Action R → Prop} (hq : s.quit = true)
    (h : Path dispatcher G s t) :
    t.quit = true ∧
      ∃ l, t.processed = s.processed ++ l ∧ l.length + t.stage.more ≤ s.stage.more := by
  induction h with
  | refl => exact ⟨hq, [], (List.append_nil _).symm, (Nat.zero_add _).le⟩
  | tail _ _ he ih =>
      obtain ⟨hq', l, hl, hle⟩ := ih
      obtain ⟨hq'', l', hl', hle'⟩ := quit_step hq' he
      refine ⟨hq'', l ++ l', ?_, ?_⟩
      · rw [hl', hl, List.append_assoc]
      · rw [List.length_append]
        omega

theorem Stage.more_le (st : Stage R) : st.more ≤ 1 := by
  cases st with
  | testing | returned => exact Nat.zero_le 1
  | entering | checking | processing => exact Nat.le_refl 1

end Shutdown

/-- When a call of `shutdown` has returned, the steps of the thread come to the return of `run`,
wherever in the loop it is. -/
theorem shutdown_ends_run {s : State R} (h : Reachable dispatcher s) (hf : 0 < s.finished) :
    Inevitable dispatcher Own (fun t => t.stage = .returned) s := by
  refine inevitable_of_descent (I := Ending) Nat.lt_wfRel.wf (fun s => s.stage.left) ?_ ?_
    ⟨.of_reaches h, hf⟩
  · intro s a t h _ hg he
    exact h.step hg he
  · intro s h hs
    exact h.enabled hs

/-- The thread waits in an empty queue. -/
theorem shutdown_ends_run_waiting : ∃ s : State ℕ, Reachable dispatcher s ∧
    s.stage = .checking ∧ s.queue = [] ∧
      Inevitable dispatcher Own (fun t => t.stage = .returned) s := by
  have hr : ∃ s : State ℕ, Reachable dispatcher s ∧ s.stage = .checking ∧ s.queue = [] ∧
      0 < s.finished :=
    Reaches.exists_of_run (.init rfl) [.testQuit, .lock, .setQuit, .interrupt] (by decide)
  obtain ⟨s, hs, hc, hq, hf⟩ := hr
  exact ⟨s, hs, hc, hq, shutdown_ends_run hs hf⟩

/-- From the moment `quit` is set at most one more request is processed, and what is processed is
a beginning of what was received. -/
theorem quit_processes_at_most_one {G : State R → Action R → Prop} {s t : State R}
    (h : Reachable dispatcher s) (hq : s.quit = true) (hp : Path dispatcher G s t) :
    t.processed <+: t.received ∧ ∃ l, t.processed = s.processed ++ l ∧ l.length ≤ 1 := by
  obtain ⟨-, l, hl, hle⟩ := quit_path hq hp
  have hone := s.stage.more_le
  have hi : Inv t := hp.invariant (fun _ _ _ hi _ he => hi.step he) (.of_reaches h)
  exact ⟨hi.order, l, hl, by omega⟩

/-- One of two requests is processed after `quit` is set. -/
theorem quit_processes_at_most_one_of_two : ∃ s t : State ℕ, Reachable dispatcher s ∧
    s.queue = [1, 2] ∧ s.processed = [] ∧ t.stage = .returned ∧ t.processed = [1] ∧
      ∃ l, t.processed = s.processed ++ l ∧ l.length ≤ 1 := by
  obtain ⟨s, t, hs, hp, hq⟩ := Reaches.exists_path (G := fun _ _ => True)
    (Q := fun s t : State ℕ => s.quit = true ∧ s.queue = [1, 2] ∧ s.processed = [] ∧
      t.stage = .returned ∧ t.processed = [1]) (.init (M := dispatcher) rfl)
    [.testQuit, .receiveRecord 1, .receiveRecord 2, .setQuit]
    [.lock, .interrupt, .take, .process, .testQuit] (by decide)
  exact ⟨s, t, hs, hq.2.1, hq.2.2.1, hq.2.2.2.1, hq.2.2.2.2,
    (quit_processes_at_most_one hs hq.1 hp).2⟩

end Hatch.DirRequestDispatcher
