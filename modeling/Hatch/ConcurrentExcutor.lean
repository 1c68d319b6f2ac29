import Hatch.Inevitability
import Hatch.ThreadCount
import Mathlib.Data.Fintype.Basic
import Mathlib.Algebra.Order.BigOperators.Group.Finset

/-!
# Tasks under a semaphore and a latch

`ConcurrentExcutor.execute` hands `executeCount` tasks to a pool that runs each in a thread of its
own and waits for a latch. A task acquires a permit of a semaphore with `concurrentCount` permits,
calls `handle`, releases the permit and counts the latch down. An interrupt ends the wait for a
permit or for the latch, and both go on without it. What `handle` throws ends the task at once, and
so does `release` when the number of permits would leave the range of an `int`.
-/

namespace Hatch.ConcurrentExcutor

open ThreadCount TransitionSystem

inductive TaskStage where
  | unsubmitted
  | acquiring
  | handling
  | releasing
  | counting
  | finished
  | thrown
  deriving DecidableEq

/-- `execute`; `latched` says whether the latch has ended the wait, and not an interrupt. -/
inductive MainStage where
  | submitting (i : ℕ)
  | awaiting
  | shuttingDown (latched : Bool)
  | returned (latched : Bool)
  deriving DecidableEq

/-- `interrupted` counts the tasks that have gone on without a permit. -/
structure State (n : ℕ) where
  sem : ℤ
  cdl : ℕ
  main : MainStage
  task : Fin n → TaskStage
  interrupted : ℕ

inductive Action (n : ℕ) where
  | submit
  | await
  | interruptMain
  | shutdown
  | acquire (t : Fin n)
  | interrupt (t : Fin n)
  | handle (t : Fin n)
  | throw (t : Fin n)
  | release (t : Fin n)
  | countDown (t : Fin n)

def maxInt : ℤ := 2 ^ 31 - 1

variable {n : ℕ}

def State.move (s : State n) (t : Fin n) (st : TaskStage) : State n :=
  { s with task := Function.update s.task t st }

def mainStep (s : State n) : Action n → Option (State n)
  | .submit => match s.main with
      | .submitting i =>
          if h : i < n then some { s.move ⟨i, h⟩ .acquiring with main := .submitting (i + 1) }
          else some { s with main := .awaiting }
      | _ => none
  | .await => match s.main with
      | .awaiting => if s.cdl = 0 then some { s with main := .shuttingDown true } else none
      | _ => none
  | .interruptMain => match s.main with
      | .awaiting => some { s with main := .shuttingDown false }
      | _ => none
  | .shutdown => match s.main with
      | .shuttingDown b => some { s with main := .returned b }
      | _ => none
  | _ => none

def taskStep (s : State n) : Action n → Option (State n)
  | .acquire t =>
      if s.task t = .acquiring ∧ 0 < s.sem then some { s.move t .handling with sem := s.sem - 1 }
      else none
  | .interrupt t =>
      if s.task t = .acquiring then
        some { s.move t .handling with interrupted := s.interrupted + 1 }
      else none
  | .handle t => if s.task t = .handling then some (s.move t .releasing) else none
  | .throw t => if s.task t = .handling then some (s.move t .thrown) else none
  | .release t =>
      if s.task t = .releasing then
        if s.sem = maxInt then some (s.move t .thrown)
        else some { s.move t .counting with sem := s.sem + 1 }
      else none
  | .countDown t =>
      if s.task t = .counting then some { s.move t .finished with cdl := s.cdl - 1 } else none
  | _ => none

def step (s : State n) (a : Action n) : Option (State n) := (mainStep s a).or (taskStep s a)

def start (n : ℕ) (concurrentCount : ℤ) : State n where
  sem := concurrentCount
  cdl := n
  main := .submitting 0
  task _ := .unsubmitted
  interrupted := 0

def execute (executeCount : ℕ) (concurrentCount : ℤ) :
    Machine (State executeCount) (Action executeCount) where
  init s := s = start executeCount concurrentCount
  step := step

/-! What a step can do. -/

/-- A step of a task: its stage, the permits and the interrupts before and after. -/
inductive TaskChange (t : Fin n) : Action n → TaskStage × ℤ × ℕ → TaskStage × ℤ × ℕ → Prop
  | acquire {p : ℤ} {k : ℕ} (h : 0 < p) :
      TaskChange t (.acquire t) (.acquiring, p, k) (.handling, p - 1, k)
  | interrupt {p : ℤ} {k : ℕ} :
      TaskChange t (.interrupt t) (.acquiring, p, k) (.handling, p, k + 1)
  | handle {p : ℤ} {k : ℕ} : TaskChange t (.handle t) (.handling, p, k) (.releasing, p, k)
  | throw {p : ℤ} {k : ℕ} : TaskChange t (.throw t) (.handling, p, k) (.thrown, p, k)
  | overflow {k : ℕ} : TaskChange t (.release t) (.releasing, maxInt, k) (.thrown, maxInt, k)
  | release {p : ℤ} {k : ℕ} (h : p ≠ maxInt) :
      TaskChange t (.release t) (.releasing, p, k) (.counting, p + 1, k)

inductive Change (s : State n) : Action n → State n → Prop
  | submit (i : ℕ) (h : i < n) (hm : s.main = .submitting i) :
      Change s .submit { s.move ⟨i, h⟩ .acquiring with main := .submitting (i + 1) }
  | submitted (i : ℕ) (h : n ≤ i) (hm : s.main = .submitting i) :
      Change s .submit { s with main := .awaiting }
  | await (hm : s.main = .awaiting) (h : s.cdl = 0) :
      Change s .await { s with main := .shuttingDown true }
  | interruptMain (hm : s.main = .awaiting) :
      Change s .interruptMain { s with main := .shuttingDown false }
  | shutdown (b : Bool) (hm : s.main = .shuttingDown b) :
      Change s .shutdown { s with main := .returned b }
  | task {a : Action n} (t : Fin n) {st : TaskStage} {p : ℤ} {k : ℕ}
      (h : TaskChange t a (s.task t, s.sem, s.interrupted) (st, p, k)) :
      Change s a { s.move t st with sem := p, interrupted := k }
  | countDown (t : Fin n) (h : s.task t = .counting) :
      Change s (.countDown t) { s.move t .finished with cdl := s.cdl - 1 }

theorem change_of_mainStep {s t : State n} {a : Action n} (h : mainStep s a = some t) :
    Change s a t := by
  unfold mainStep at h
  split at h
  · split at h
    · rename_i i hm
      split_ifs at h with hi
      · exact Option.some.inj h ▸ .submit i hi hm
      · exact Option.some.inj h ▸ .submitted i (not_lt.mp hi) hm
    · cases h
  · split at h
    · rename_i hm
      split_ifs at h with hc
      exact Option.some.inj h ▸ .await hm hc
    · cases h
  · split at h
    · rename_i hm
      exact Option.some.inj h ▸ .interruptMain hm
    · cases h
  · split at h
    · rename_i b hm
      exact Option.some.inj h ▸ .shutdown b hm
    · cases h
  · cases h

theorem change_of_taskStep {s u : State n} {a : Action n} (h : taskStep s a = some u) :
    Change s a u := by
  have task {t : Fin n} {a : Action n} {st st' : TaskStage} {p : ℤ} {k : ℕ}
      (hs : s.task t = st) (hc : TaskChange t a (st, s.sem, s.interrupted) (st', p, k)) :
      Change s a { s.move t st' with sem := p, interrupted := k } :=
    .task t (hs ▸ hc)
  cases a with
  | acquire t =>
      simp only [taskStep, Option.ite_none_right_eq_some, Option.some.injEq] at h
      obtain ⟨⟨hs, hp⟩, rfl⟩ := h
      exact task hs (.acquire hp)
  | interrupt t =>
      simp only [taskStep, Option.ite_none_right_eq_some, Option.some.injEq] at h
      obtain ⟨hs, rfl⟩ := h
      exact task hs .interrupt
  | handle t =>
      simp only [taskStep, Option.ite_none_right_eq_some, Option.some.injEq] at h
      obtain ⟨hs, rfl⟩ := h
      exact task hs .handle
  | throw t =>
      simp only [taskStep, Option.ite_none_right_eq_some, Option.some.injEq] at h
      obtain ⟨hs, rfl⟩ := h
      exact task hs .throw
  | release t =>
      simp only [taskStep, Option.ite_none_right_eq_some] at h
      obtain ⟨hs, h⟩ := h
      split_ifs at h with hp
      · obtain rfl := Option.some.inj h
        have hc : TaskChange t (.release t) (.releasing, s.sem, s.interrupted)
            (.thrown, s.sem, s.interrupted) := hp ▸ .overflow
        exact task hs hc
      · obtain rfl := Option.some.inj h
        exact task hs (.release hp)
  | countDown t =>
      simp only [taskStep, Option.ite_none_right_eq_some, Option.some.injEq] at h
      obtain ⟨hs, rfl⟩ := h
      exact .countDown t hs
  | submit | await | interruptMain | shutdown => cases h

theorem change_of_step {s t : State n} {a : Action n} (h : step s a = some t) : Change s a t := by
  rcases Option.or_eq_some_iff.mp h with h | ⟨-, h⟩
  · exact change_of_mainStep h
  · exact change_of_taskStep h

/-! What holds in every run. -/

def TaskStage.inside : TaskStage → Bool
  | .handling | .releasing | .thrown => true
  | _ => false

def TaskStage.unfinished : TaskStage → Bool
  | .finished => false
  | _ => true

def TaskStage.early : TaskStage → Bool
  | .unsubmitted | .acquiring => true
  | _ => false

/-- The tasks that the loop has come to are submitted. -/
def MainStage.Submitted : MainStage → (Fin n → TaskStage) → Prop
  | .submitting i, task => ∀ t : Fin n, task t = .unsubmitted ↔ i ≤ t
  | _, task => ∀ t : Fin n, task t ≠ .unsubmitted

def MainStage.latched : MainStage → Bool
  | .shuttingDown b | .returned b => b
  | _ => false

structure Inv (concurrentCount : ℤ) (s : State n) : Prop where
  permits : s.sem + count TaskStage.inside s.task = concurrentCount + s.interrupted
  least : min concurrentCount 0 ≤ s.sem
  latch : s.cdl = count TaskStage.unfinished s.task
  early : s.interrupted + count TaskStage.early s.task ≤ n
  submitted : s.main.Submitted s.task
  awaited : s.main.latched = true → s.cdl = 0

section Inv

variable {k : ℤ} {s t : State n}

theorem inv_start (n : ℕ) (k : ℤ) : Inv k (start n k) where
  permits := by
    rw [count_eq_zero (fun _ => rfl)]
    rfl
  least := min_le_left _ _
  latch := by simp [start, count, TaskStage.unfinished]
  early := by simp [start, count, TaskStage.early]
  submitted := fun _ => ⟨fun _ => Nat.zero_le _, fun _ => rfl⟩
  awaited := nofun

structure TaskChange.Keeps (st st' : TaskStage) (p p' : ℤ) (k k' : ℕ) : Prop where
  permits : p' + ind st'.inside + k = p + ind st.inside + k'
  least : p' < p → 0 ≤ p'
  early : k' + ind st'.early ≤ k + ind st.early
  unfinished : ind st'.unfinished = ind st.unfinished
  submitted : st ≠ .unsubmitted ∧ st' ≠ .unsubmitted

theorem TaskChange.keeps {t : Fin n} {a : Action n} {st st' : TaskStage} {p p' : ℤ} {k k' : ℕ}
    (h : TaskChange t a (st, p, k) (st', p', k')) : TaskChange.Keeps st st' p p' k k' := by
  cases h with
  | acquire hp =>
      refine ⟨?_, fun _ => by omega, ?_, rfl, by simp⟩ <;>
        simp [TaskStage.inside, TaskStage.early]
  | interrupt =>
      refine ⟨?_, fun h => absurd h (lt_irrefl _), ?_, rfl, by simp⟩ <;>
        simp [TaskStage.inside, TaskStage.early]
      omega
  | release hp =>
      refine ⟨?_, fun h => by omega, ?_, rfl, by simp⟩ <;>
        simp [TaskStage.inside, TaskStage.early]
  | handle | throw | overflow =>
      exact ⟨rfl, fun h => absurd h (lt_irrefl _), le_rfl, rfl, by simp⟩

/-- A submitted task moves on. -/
theorem submitted_update {m : MainStage} {task : Fin n → TaskStage} (h : m.Submitted task)
    {t : Fin n} {st : TaskStage} (ht : task t ≠ .unsubmitted) (hst : st ≠ .unsubmitted) :
    m.Submitted (Function.update task t st) := by
  have hiff (u : Fin n) : Function.update task t st u = .unsubmitted ↔ task u = .unsubmitted := by
    by_cases hu : u = t
    · subst hu
      simp [ht, hst]
    · rw [Function.update_of_ne hu]
  cases m with
  | submitting i => exact fun u => (hiff u).trans (h u)
  | awaiting | shuttingDown b | returned b => exact fun u hu => h u ((hiff u).mp hu)

theorem Inv.taskChange (h : Inv k s) {i : Fin n} {a : Action n} {st : TaskStage} {p : ℤ} {j : ℕ}
    (hc : TaskChange i a (s.task i, s.sem, s.interrupted) (st, p, j)) :
    Inv k { s.move i st with sem := p, interrupted := j } := by
  have hk := hc.keeps
  refine ⟨?_, ?_, ?_, ?_, submitted_update h.submitted hk.submitted.1 hk.submitted.2, h.awaited⟩
  · have hu := count_update TaskStage.inside s.task i st
    have hp := hk.permits
    have h0 := h.permits
    change p + count TaskStage.inside (Function.update s.task i st) = k + j
    omega
  · rcases lt_or_ge p s.sem with hp | hp
    · exact (min_le_right _ _).trans (hk.least hp)
    · exact h.least.trans hp
  · have hu := count_update TaskStage.unfinished s.task i st
    have h0 := h.latch
    have he := hk.unfinished
    change s.cdl = count TaskStage.unfinished (Function.update s.task i st)
    omega
  · have hu := count_update TaskStage.early s.task i st
    have h0 := h.early
    have he := hk.early
    change j + count TaskStage.early (Function.update s.task i st) ≤ n
    omega

theorem Inv.submit (h : Inv k s) {i : ℕ} (hi : i < n) (hm : s.main = .submitting i) :
    Inv k { s.move ⟨i, hi⟩ .acquiring with main := .submitting (i + 1) } := by
  have hsub := h.submitted
  rw [hm] at hsub
  have ht : s.task ⟨i, hi⟩ = .unsubmitted := (hsub ⟨i, hi⟩).mpr le_rfl
  have hcount (p : TaskStage → Bool) (hp : p .acquiring = p .unsubmitted) :
      count p (Function.update s.task ⟨i, hi⟩ .acquiring) = count p s.task := by
    have hu := count_update p s.task ⟨i, hi⟩ .acquiring
    rw [ht, hp] at hu
    omega
  refine ⟨?_, h.least, ?_, ?_, ?_, nofun⟩
  · have h0 := h.permits
    rwa [← hcount _ rfl] at h0
  · have h0 := h.latch
    rwa [← hcount _ rfl] at h0
  · have h0 := h.early
    rwa [← hcount _ rfl] at h0
  · intro t
    change Function.update s.task ⟨i, hi⟩ .acquiring t = .unsubmitted ↔ i + 1 ≤ t
    by_cases hti : t = ⟨i, hi⟩
    · subst hti
      simp
    · rw [Function.update_of_ne hti, hsub t]
      have hne : (t : ℕ) ≠ i := fun h => hti (Fin.ext h)
      omega

theorem Inv.step (h : Inv k s) {a : Action n} (hs : step s a = some t) : Inv k t := by
  cases change_of_step hs with
  | submit i hi hm => exact h.submit hi hm
  | submitted i hi hm =>
      refine ⟨h.permits, h.least, h.latch, h.early, ?_, nofun⟩
      have hsub := h.submitted
      rw [hm] at hsub
      exact fun u hu => absurd ((hsub u).mp hu) (by omega)
  | await hm hc =>
      have hsub := h.submitted
      rw [hm] at hsub
      exact ⟨h.permits, h.least, h.latch, h.early, hsub, fun _ => hc⟩
  | interruptMain hm =>
      have hsub := h.submitted
      rw [hm] at hsub
      exact ⟨h.permits, h.least, h.latch, h.early, hsub, nofun⟩
  | shutdown b hm =>
      have hsub := h.submitted
      have hlat := h.awaited
      rw [hm] at hsub hlat
      exact ⟨h.permits, h.least, h.latch, h.early, hsub, hlat⟩
  | task i hc => exact h.taskChange hc
  | countDown i hi =>
      have hne : s.task i ≠ .unsubmitted := by rw [hi]; simp
      have hcount (p : TaskStage → Bool) := count_update p s.task i .finished
      refine ⟨?_, h.least, ?_, ?_, submitted_update h.submitted hne (by simp), ?_⟩
      · have hu := hcount TaskStage.inside
        have h0 := h.permits
        rw [hi] at hu
        change s.sem + count TaskStage.inside (Function.update s.task i .finished) =
          k + s.interrupted
        simp only [TaskStage.inside, ind_false] at hu
        omega
      · have hu := hcount TaskStage.unfinished
        have h0 := h.latch
        rw [hi] at hu
        change s.cdl - 1 = count TaskStage.unfinished (Function.update s.task i .finished)
        simp only [TaskStage.unfinished, ind_true, ind_false] at hu
        omega
      · have hu := hcount TaskStage.early
        have h0 := h.early
        rw [hi] at hu
        change s.interrupted + count TaskStage.early (Function.update s.task i .finished) ≤ n
        simp only [TaskStage.early, ind_false] at hu
        omega
      · intro hl
        change s.cdl - 1 = 0
        rw [h.awaited hl]

theorem Inv.of_reaches {G : State n → Action n → Prop} (h : Reaches (execute n k) G s) :
    Inv k s :=
  h.invariant (fun _ hs => hs ▸ inv_start n k) (fun _ _ _ hi _ he => hi.step he)

end Inv

/-! Results. -/

section Results

variable {k : ℤ} {s : State n}

theorem count_le_count {p q : TaskStage → Bool} (h : ∀ st, p st = true → q st = true)
    (f : Fin n → TaskStage) : count p f ≤ count q f := by
  refine Finset.sum_le_sum (fun t _ => ?_)
  cases hp : p (f t) with
  | false => exact Nat.zero_le _
  | true => rw [h _ hp]

/-- At most as many tasks are in `handle` as there are permits, and one more for every
interrupt. -/
theorem handling_le (h : Reachable (execute n k) s) :
    (count (fun st => st = .handling) s.task : ℤ) ≤ max k 0 + s.interrupted := by
  have hi := Inv.of_reaches h
  have hc : count (fun st => decide (st = .handling)) s.task ≤ count TaskStage.inside s.task :=
    count_le_count (fun st hst => by simp at hst; rw [hst]; rfl) s.task
  have hp := hi.permits
  have hl := hi.least
  omega

/-- With one permit and one interrupt, two tasks are in `handle`. -/
theorem handling_le_interrupted : ∃ s : State 3, Reachable (execute 3 1) s ∧
    count (fun st => st = .handling) s.task = 2 ∧ s.interrupted = 1 ∧
    (count (fun st => st = .handling) s.task : ℤ) ≤ max 1 0 + s.interrupted := by
  obtain ⟨s, hs, hc, hi⟩ := Reaches.exists_of_run (G := fun _ _ => True)
    (Q := fun s : State 3 => count (fun st => st = .handling) s.task = 2 ∧ s.interrupted = 1)
    (.init (M := execute 3 1) rfl) [.submit, .submit, .submit, .acquire 1, .interrupt 0]
    (by decide +kernel)
  exact ⟨s, hs, hc, hi, handling_le hs⟩

/-- When the latch has let `execute` go on, every task has called `handle` and come back. -/
theorem execute_waits (h : Reachable (execute n k) s) (hm : s.main.latched = true) (t : Fin n) :
    s.task t = .finished := by
  have hi := Inv.of_reaches h
  have h0 : count TaskStage.unfinished s.task = 0 := by rw [← hi.latch, hi.awaited hm]
  by_contra ht
  have hu : TaskStage.unfinished (s.task t) = true := by
    cases hs : s.task t <;> first | rfl | exact absurd hs ht
  exact absurd (count_pos (p := TaskStage.unfinished) hu) (by omega)

theorem execute_waits_two : ∃ s : State 2, Reachable (execute 2 1) s ∧
    s.main = .returned true ∧ s.task 0 = .finished := by
  obtain ⟨s, hs, hm⟩ := Reaches.exists_of_run (G := fun _ _ => True)
    (Q := fun s : State 2 => s.main = .returned true)
    (.init (M := execute 2 1) rfl) [.submit, .submit, .submit, .acquire 1, .handle 1, .release 1,
      .acquire 0, .countDown 1, .handle 0, .release 0, .countDown 0, .await, .shutdown]
    (by decide +kernel)
  exact ⟨s, hs, hm, execute_waits hs (by rw [hm]; rfl) 0⟩

/-! Termination. -/

/-- No `handle` throws, and no thread is interrupted. -/
def Calm (_ : State n) : Action n → Prop
  | .throw _ | .interrupt _ | .interruptMain => False
  | _ => True

def TaskStage.left : TaskStage → ℕ
  | .unsubmitted => 5
  | .acquiring => 4
  | .handling => 3
  | .releasing => 2
  | .counting => 1
  | .finished | .thrown => 0

def MainStage.left : MainStage → ℕ
  | .submitting _ => 3
  | .awaiting => 2
  | .shuttingDown _ => 1
  | .returned _ => 0

def State.left (s : State n) : ℕ := s.main.left + weight TaskStage.left s.task

theorem weight_move {task : Fin n → TaskStage} {t : Fin n} {st : TaskStage}
    (h : st.left < (task t).left) :
    weight TaskStage.left (Function.update task t st) < weight TaskStage.left task := by
  have hu := weight_update TaskStage.left task t st
  omega

structure Running (k : ℤ) (s : State n) : Prop extends Inv k s where
  none_thrown : ∀ t, s.task t ≠ .thrown
  uninterrupted : s.interrupted = 0
  waits : s.main ≠ .shuttingDown false ∧ s.main ≠ .returned false

theorem Running.sem_lt (h : Running k s) (hk : k ≤ maxInt) {t : Fin n}
    (ht : (s.task t).inside = true) : s.sem < maxInt := by
  have hp := h.permits
  have hpos := count_pos (p := TaskStage.inside) ht
  rw [h.uninterrupted] at hp
  omega

theorem TaskChange.left_lt {t : Fin n} {a : Action n} {st st' : TaskStage} {p p' : ℤ}
    {j j' : ℕ} (h : TaskChange t a (st, p, j) (st', p', j')) : st'.left < st.left := by
  cases h <;> decide

theorem Running.step (h : Running k s) (hk : k ≤ maxInt) {a : Action n} {u : State n}
    (hg : Calm s a) (he : step s a = some u) : Running k u ∧ u.left < s.left := by
  have hthrown {t : Fin n} {st : TaskStage} (hst : st ≠ .thrown) (t' : Fin n) :
      Function.update s.task t st t' ≠ .thrown := by
    by_cases ht : t' = t
    · subst ht
      rwa [Function.update_self]
    · rw [Function.update_of_ne ht]
      exact h.none_thrown t'
  have hinv := h.toInv.step he
  cases change_of_step he with
  | submit i hi hm =>
      refine ⟨⟨hinv, hthrown (by simp), h.uninterrupted, by simp⟩, ?_⟩
      have hsub := h.submitted
      rw [hm] at hsub
      have ht : s.task ⟨i, hi⟩ = .unsubmitted := (hsub ⟨i, hi⟩).mpr le_rfl
      have hw : weight TaskStage.left (Function.update s.task ⟨i, hi⟩ .acquiring) <
          weight TaskStage.left s.task := weight_move (by rw [ht]; decide)
      simp only [State.left, State.move, hm, MainStage.left]
      omega
  | submitted i hi hm =>
      refine ⟨⟨hinv, h.none_thrown, h.uninterrupted, by simp⟩, ?_⟩
      simp only [State.left, hm, MainStage.left]
      omega
  | await hm hc =>
      refine ⟨⟨hinv, h.none_thrown, h.uninterrupted, by simp⟩, ?_⟩
      simp only [State.left, hm, MainStage.left]
      omega
  | interruptMain hm => exact hg.elim
  | shutdown b hm =>
      have hb : b ≠ false := fun hb => h.waits.1 (hb ▸ hm)
      refine ⟨⟨hinv, h.none_thrown, h.uninterrupted, by simp [hb]⟩, ?_⟩
      simp only [State.left, hm, MainStage.left]
      omega
  | @task _ t st p j hc =>
      have hj : j = s.interrupted ∧ st ≠ .thrown := by
        generalize hst : s.task t = st' at hc
        generalize hsem : s.sem = q at hc
        cases hc with
        | throw | interrupt => exact hg.elim
        | overflow => exact absurd hsem (ne_of_lt (h.sem_lt hk (by rw [hst]; rfl)))
        | acquire | handle | release => exact ⟨rfl, by simp⟩
      refine ⟨⟨hinv, hthrown hj.2, hj.1.trans h.uninterrupted, h.waits⟩, ?_⟩
      have hw : weight TaskStage.left (Function.update s.task t st) <
          weight TaskStage.left s.task := weight_move hc.left_lt
      simp only [State.left, State.move]
      omega
  | countDown t ht =>
      refine ⟨⟨hinv, hthrown (by simp), h.uninterrupted, h.waits⟩, ?_⟩
      have hw : weight TaskStage.left (Function.update s.task t .finished) <
          weight TaskStage.left s.task := weight_move (by rw [ht]; decide)
      simp only [State.left, State.move]
      omega

theorem exists_of_count_pos {p : TaskStage → Bool} {f : Fin n → TaskStage} (h : 0 < count p f) :
    ∃ t, p (f t) = true := by
  by_contra hn
  push Not at hn
  rw [count_eq_zero (fun t => by simpa using hn t)] at h
  exact absurd h (lt_irrefl 0)

/-- A task that holds a permit can go on. -/
theorem Running.inside_enabled (h : Running k s) {t : Fin n} (ht : (s.task t).inside = true) :
    ∃ a, Calm s a ∧ (ConcurrentExcutor.step s a).isSome = true := by
  cases hs : s.task t with
  | handling =>
      exact ⟨.handle t, trivial, by simp [ConcurrentExcutor.step, mainStep, taskStep, hs]⟩
  | releasing =>
      refine ⟨.release t, trivial, ?_⟩
      simp only [ConcurrentExcutor.step, mainStep, taskStep, hs, Option.none_or, if_true]
      split_ifs <;> rfl
  | thrown => exact absurd hs (h.none_thrown t)
  | unsubmitted | acquiring | counting | finished =>
      rw [hs] at ht
      cases ht

/-- A task that has not finished can go on, or one that holds a permit can. -/
theorem Running.task_enabled (h : Running k s) (hk : 1 ≤ k) {t : Fin n}
    (hs : s.task t ≠ .unsubmitted) (ht : (s.task t).unfinished = true) :
    ∃ a, Calm s a ∧ (ConcurrentExcutor.step s a).isSome = true := by
  cases hst : s.task t with
  | unsubmitted => exact absurd hst hs
  | acquiring =>
      by_cases hp : 0 < s.sem
      · exact ⟨.acquire t, trivial, by simp [ConcurrentExcutor.step, mainStep, taskStep, hst, hp]⟩
      · have hin := h.permits
        rw [h.uninterrupted] at hin
        obtain ⟨t', ht'⟩ := exists_of_count_pos (p := TaskStage.inside) (f := s.task) (by omega)
        exact h.inside_enabled ht'
  | handling | releasing | thrown => exact h.inside_enabled (t := t) (by rw [hst]; rfl)
  | counting =>
      exact ⟨.countDown t, trivial, by simp [ConcurrentExcutor.step, mainStep, taskStep, hst]⟩
  | finished =>
      rw [hst] at ht
      cases ht

/-- As long as `execute` has not returned, some thread can go on. -/
theorem Running.enabled (h : Running k s) (hk : 1 ≤ k ∨ n = 0) (hm : s.main ≠ .returned true) :
    ∃ a, Calm s a ∧ (ConcurrentExcutor.step s a).isSome = true := by
  cases hs : s.main with
  | submitting i =>
      refine ⟨.submit, trivial, ?_⟩
      simp only [ConcurrentExcutor.step, mainStep, hs]
      split_ifs <;> rfl
  | awaiting =>
      by_cases hc : s.cdl = 0
      · exact ⟨.await, trivial, by simp [ConcurrentExcutor.step, mainStep, hs, hc]⟩
      · rw [h.latch] at hc
        obtain ⟨t, ht⟩ := exists_of_count_pos (Nat.pos_of_ne_zero hc)
        have hsub := h.submitted
        rw [hs] at hsub
        rcases hk with hk | rfl
        · exact h.task_enabled hk (hsub t) ht
        · exact t.elim0
  | shuttingDown b =>
      exact ⟨.shutdown, trivial, by simp [ConcurrentExcutor.step, mainStep, hs]⟩
  | returned b =>
      cases b with
      | true => exact absurd hs hm
      | false => exact absurd hs h.waits.2

theorem running_of_reaches (hk : k ≤ maxInt) (h : Reaches (execute n k) Calm s) :
    Running k s := by
  refine h.invariant ?_ (fun _ _ _ hi hg he => (hi.step hk hg he).1)
  rintro _ rfl
  exact ⟨inv_start n k, fun _ => by simp [start], rfl, by simp [start]⟩

/-- Without a permit no task ever comes to `handle`. -/
theorem early_of_reaches (hk : k ≤ 0) (h : Reaches (execute n k) Calm s) (t : Fin n) :
    (s.task t).early = true := by
  refine (h.invariant (I := fun s => (∀ t, (s.task t).early = true) ∧ s.sem ≤ 0) ?_ ?_).1 t
  · rintro _ rfl
    exact ⟨fun _ => rfl, hk⟩
  · rintro s a u ⟨hi, hp⟩ hg he
    have hmove {t : Fin n} {st : TaskStage} (hst : st.early = true) (t' : Fin n) :
        TaskStage.early (Function.update s.task t st t') = true := by
      by_cases ht : t' = t
      · subst ht
        rwa [Function.update_self]
      · rw [Function.update_of_ne ht]
        exact hi t'
    cases change_of_step he with
    | submit i h hm => exact ⟨hmove rfl, hp⟩
    | submitted | await | shutdown => exact ⟨hi, hp⟩
    | interruptMain => exact hg.elim
    | @task _ t st p j hc =>
        have ht := hi t
        generalize hst : s.task t = st' at hc ht
        generalize hsem : s.sem = q at hc
        cases hc with
        | acquire hq => omega
        | interrupt => exact hg.elim
        | handle | throw | overflow | release => cases ht
    | countDown t ht =>
        have h0 := hi t
        rw [ht] at h0
        cases h0

/-- Every run comes to the return of `execute` if and only if there is a permit, or nothing to do,
provided that no `handle` throws and no thread is interrupted. -/
theorem execute_returns_iff (hk : k ≤ maxInt) :
    (∀ s, Reaches (execute n k) Calm s →
      Inevitable (execute n k) Calm (fun s => s.main = .returned true) s) ↔ 1 ≤ k ∨ n = 0 := by
  constructor
  · intro h
    by_contra hn
    push Not at hn
    obtain ⟨u, hp, hu⟩ := (h (start n k) (.init rfl)).exists_path
    have hr := Reaches.path (.init (M := execute n k) rfl) hp
    have t : Fin n := ⟨0, Nat.pos_of_ne_zero hn.2⟩
    have hf := execute_waits (hr.mono (fun _ _ _ => trivial)) (by rw [hu]; rfl) t
    have he := early_of_reaches (by omega) hr t
    rw [hf] at he
    cases he
  · intro hkn s hs
    refine inevitable_of_descent (I := Running k) (Nat.lt_wfRel.wf) State.left ?_ ?_
      (running_of_reaches hk hs)
    · exact fun s a t hi _ hg he => hi.step hk hg he
    · intro s hi hm
      obtain ⟨a, hg, ha⟩ := hi.enabled hkn hm
      obtain ⟨u, hu⟩ := Option.isSome_iff_exists.mp ha
      exact ⟨a, u, hg, hu⟩

/-- The call in `SingletonContainerTest`. -/
theorem execute_returns_iff_thousand : (2 : ℤ) ≤ maxInt ∧
    ((∀ s, Reaches (execute 1000 2) Calm s →
      Inevitable (execute 1000 2) Calm (fun s => s.main = .returned true) s) ↔
        (1 : ℤ) ≤ 2 ∨ 1000 = 0) :=
  ⟨by decide, execute_returns_iff (by decide)⟩

end Results

end Hatch.ConcurrentExcutor
