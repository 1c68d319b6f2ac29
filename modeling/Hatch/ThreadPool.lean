import Hatch.NetCommon
import Hatch.ThreadCount
import Hatch.TransitionSystem

/-!
# The thread pool

`CHatchThreadSimplePool` as atomic steps of any number of pushing and working
threads. A push stores its runner under the lock and releases the semaphore
afterwards, whatever the release returns; a worker is woken by the semaphore, takes
the front runner under the lock, if there is one, and runs it. The end event takes
precedence over the semaphore.
-/

namespace Hatch.Pool

open TransitionSystem ThreadCount Net

inductive Stage (R : Type)
  | idle
  | entering (r : R)
  | storing (r : R)
  | leaving
  | releasing
  | woken
  | popping
  | popped (r : Option R)
  | running (r : R)
  | ended
  deriving DecidableEq

structure State (R T : Type) where
  sem : ℕ
  lock : Option T
  listRunner : List R
  event : Bool
  stage : T → Stage R

inductive Action (R T : Type)
  | push (t : T) (r : R)
  | enter (t : T)
  | store (t : T)
  | leave (t : T)
  | release (t : T)
  | wait (t : T)
  | enterPop (t : T)
  | pop (t : T)
  | leavePop (t : T)
  | run (t : T)
  | hatchEnd
  | endThread (t : T)

variable {R T : Type} [DecidableEq T]

def State.move (s : State R T) (t : T) (p : Stage R) : State R T :=
  { s with stage := Function.update s.stage t p }

/-- `hatchReleaseSemaphore`; at its maximum the semaphore keeps its value. -/
def hatchReleaseSemaphore (n : ℕ) : ℕ := if n < semaphoreMaxCount then n + 1 else n

def step (s : State R T) : Action R T → Option (State R T)
  | .push t r => match s.stage t with
      | .idle => some (s.move t (.entering r))
      | _ => none
  | .enter t => match s.stage t, s.lock with
      | .entering r, none => some ({ s with lock := some t }.move t (.storing r))
      | _, _ => none
  | .store t => match s.stage t with
      | .storing r => some ({ s with listRunner := s.listRunner ++ [r] }.move t .leaving)
      | _ => none
  | .leave t => match s.stage t with
      | .leaving => some ({ s with lock := none }.move t .releasing)
      | _ => none
  | .release t => match s.stage t with
      | .releasing => some ({ s with sem := hatchReleaseSemaphore s.sem }.move t .idle)
      | _ => none
  | .wait t => match s.stage t with
      | .idle => if 0 < s.sem ∧ s.event = false
          then some ({ s with sem := s.sem - 1 }.move t .woken) else none
      | _ => none
  | .enterPop t => match s.stage t, s.lock with
      | .woken, none => some ({ s with lock := some t }.move t .popping)
      | _, _ => none
  | .pop t => match s.stage t with
      | .popping =>
          some ({ s with listRunner := s.listRunner.tail }.move t (.popped s.listRunner.head?))
      | _ => none
  | .leavePop t => match s.stage t with
      | .popped (some r) => some ({ s with lock := none }.move t (.running r))
      | .popped none => some ({ s with lock := none }.move t .idle)
      | _ => none
  | .run t => match s.stage t with
      | .running _ => some (s.move t .idle)
      | _ => none
  | .hatchEnd => some { s with event := true }
  | .endThread t => match s.stage t with
      | .idle => if s.event = true then some (s.move t .ended) else none
      | _ => none

def start : State R T where
  sem := 0
  lock := none
  listRunner := []
  event := false
  stage := fun _ => .idle

def machine : Machine (State R T) (Action R T) where
  init s := s = start
  step := step

def Stage.pushing : Stage R → Bool
  | .entering _ | .storing _ | .leaving | .releasing => true
  | _ => false

/-- The runner is stored and the semaphore not yet released. -/
def Stage.stored : Stage R → Bool
  | .leaving | .releasing => true
  | _ => false

def Stage.awake : Stage R → Bool
  | .woken | .popping => true
  | _ => false

/-- Releases find the semaphore below its maximum. -/
def ReleasesBelowMax (s : State R T) : Action R T → Prop
  | .release _ => s.sem < semaphoreMaxCount
  | _ => True

instance (s : State R T) (a : Action R T) : Decidable (ReleasesBelowMax s a) :=
  match a with
  | .release _ => inferInstanceAs (Decidable (s.sem < semaphoreMaxCount))
  | .push .. | .enter _ | .store _ | .leave _ | .wait _ | .enterPop _ | .pop _ | .leavePop _
  | .run _ | .hatchEnd | .endThread _ => .isTrue trivial

/-- Every stored runner is announced by the semaphore, by an awake worker or by a push
that has still to release. -/
def Announced [Fintype T] (n q : ℕ) (f : T → Stage R) : Prop :=
  n = q + count Stage.awake f + count Stage.stored f

theorem Announced.update [Fintype T] {n n' q q' : ℕ} {f : T → Stage R} {t : T} {p : Stage R}
    (h : Announced n q f) (he : n' + q + ind (f t).awake + ind (f t).stored =
      n + q' + ind p.awake + ind p.stored) : Announced n' q' (Function.update f t p) := by
  have h1 := count_update Stage.awake f t p
  have h2 := count_update Stage.stored f t p
  unfold Announced at h ⊢
  omega

inductive Change (s : State R T) : Action R T → State R T → Prop
  | move {a : Action R T} (t : T) {p q : Stage R} (lock : Option T) (h : s.stage t = p)
      (hawake : p.awake = q.awake) (hstored : p.stored = q.stored) :
      Change s a ({ s with lock := lock }.move t q)
  | store (t : T) (r : R) (h : s.stage t = .storing r) :
      Change s (.store t) ({ s with listRunner := s.listRunner ++ [r] }.move t .leaving)
  | release (t : T) (h : s.stage t = .releasing) :
      Change s (.release t) ({ s with sem := hatchReleaseSemaphore s.sem }.move t .idle)
  | wait (t : T) (h : s.stage t = .idle) (hsem : 0 < s.sem) :
      Change s (.wait t) ({ s with sem := s.sem - 1 }.move t .woken)
  | pop (t : T) (h : s.stage t = .popping) :
      Change s (.pop t)
        ({ s with listRunner := s.listRunner.tail }.move t (.popped s.listRunner.head?))
  | hatchEnd : Change s .hatchEnd { s with event := true }

theorem change_of_step {s s' : State R T} {a : Action R T} (h : step s a = some s') :
    Change s a s' := by
  cases a with
  | push t r | run t =>
      simp only [step] at h
      split at h
      · rename_i ht
        exact Option.some.inj h ▸ .move t s.lock ht rfl rfl
      · cases h
  | leave t =>
      simp only [step] at h
      split at h
      · rename_i ht
        exact Option.some.inj h ▸ .move t none ht rfl rfl
      · cases h
  | enter t | enterPop t =>
      simp only [step] at h
      split at h
      · rename_i ht _
        exact Option.some.inj h ▸ .move t (some t) ht rfl rfl
      · cases h
  | leavePop t =>
      simp only [step] at h
      split at h
      · rename_i r ht
        exact Option.some.inj h ▸ .move t none ht rfl rfl
      · rename_i ht
        exact Option.some.inj h ▸ .move t none ht rfl rfl
      · cases h
  | endThread t =>
      simp only [step] at h
      split at h
      · rename_i ht
        split at h
        · exact Option.some.inj h ▸ .move t s.lock ht rfl rfl
        · cases h
      · cases h
  | store t =>
      simp only [step] at h
      split at h
      · rename_i r ht
        exact Option.some.inj h ▸ .store t r ht
      · cases h
  | release t =>
      simp only [step] at h
      split at h
      · rename_i ht
        exact Option.some.inj h ▸ .release t ht
      · cases h
  | wait t =>
      simp only [step] at h
      split at h
      · rename_i ht
        split at h
        · rename_i hs
          exact Option.some.inj h ▸ .wait t ht hs.1
        · cases h
      · cases h
  | pop t =>
      simp only [step] at h
      split at h
      · rename_i ht
        exact Option.some.inj h ▸ .pop t ht
      · cases h
  | hatchEnd => exact Option.some.inj h ▸ .hatchEnd

theorem Change.announced [Fintype T] {s s' : State R T} {a : Action R T} (h : Change s a s')
    (hi : Announced s.listRunner.length s.sem s.stage) (hg : ReleasesBelowMax s a) :
    Announced s'.listRunner.length s'.sem s'.stage := by
  cases h with
  | move t lock ht hawake hstored => exact hi.update (by rw [ht, hawake, hstored]; rfl)
  | store t r ht =>
      apply hi.update
      rw [ht]
      simp only [State.move, Stage.awake, Stage.stored, ind_true, ind_false, List.length_append,
        List.length_singleton]
      omega
  | release t ht =>
      have hm : hatchReleaseSemaphore s.sem = s.sem + 1 := if_pos hg
      apply hi.update
      rw [ht]
      simp only [State.move, hm, Stage.awake, Stage.stored, ind_true, ind_false]
      omega
  | wait t ht hsem =>
      apply hi.update
      rw [ht]
      simp only [State.move, Stage.awake, Stage.stored, ind_true, ind_false]
      omega
  | pop t ht =>
      -- an awake worker finds a runner, so the list really gets shorter
      have hp : 0 < count Stage.awake s.stage := count_pos (t := t) (by rw [ht]; rfl)
      have hlen : 0 < s.listRunner.length := by
        unfold Announced at hi
        omega
      apply hi.update
      rw [ht]
      simp only [State.move, Stage.awake, Stage.stored, ind_true, ind_false, List.length_tail]
      omega
  | hatchEnd => exact hi

theorem announced_of_reaches [Fintype T] {s : State R T}
    (h : Reaches machine ReleasesBelowMax s) : Announced s.listRunner.length s.sem s.stage := by
  refine Reaches.invariant
    (I := fun s : State R T => Announced s.listRunner.length s.sem s.stage) ?_ ?_ h
  · rintro _ rfl
    unfold Announced
    rw [count_eq_zero (fun _ => rfl), count_eq_zero (fun _ => rfl)]
    rfl
  · intro s a s' hs hg he
    exact (change_of_step he).announced hs hg

/-- As long as every push releases the semaphore below its maximum, no runner is
stranded when all pushes have returned, whether or not the pool has been ended. -/
theorem no_stranded_runner {R T : Type} [DecidableEq T] [Fintype T] {s : State R T}
    (h : Reaches machine ReleasesBelowMax s) (hp : ∀ t, (s.stage t).pushing = false) :
    s.listRunner.length ≤ s.sem + count Stage.awake s.stage := by
  have hi := announced_of_reaches h
  have hz : count Stage.stored s.stage = 0 := by
    apply count_eq_zero
    intro t
    have ht := hp t
    cases hs : s.stage t <;> simp_all [Stage.pushing, Stage.stored]
  unfold Announced at hi
  omega

/-- Of two pushed runners one has been taken and one is still announced. -/
theorem no_stranded_runner_taken :
    ∃ s : State ℕ Bool, Reaches machine ReleasesBelowMax s ∧ s.listRunner = [8] ∧
      s.listRunner.length ≤ s.sem + count Stage.awake s.stage := by
  have hr : ∃ s : State ℕ Bool, Reaches machine ReleasesBelowMax s ∧ s.listRunner = [8] ∧
      s.stage false = .idle ∧ s.stage true = .running 7 :=
    Reaches.exists_of_run (.init rfl)
      [.push false 7, .enter false, .store false, .leave false, .release false,
        .push false 8, .enter false, .store false, .leave false, .release false,
        .wait true, .enterPop true, .pop true, .leavePop true] (by decide +kernel)
  obtain ⟨s, hs, hl, hf, ht⟩ := hr
  refine ⟨s, hs, hl, no_stranded_runner hs ?_⟩
  intro t
  cases t with
  | false => rw [hf]; rfl
  | true => rw [ht]; rfl

/-- One thread pushes `n` runners and no worker takes any. -/
theorem reachable_pushes (n : ℕ) : ∃ s : State Unit Unit, Reachable machine s ∧
    (s.lock, s.event, s.stage (), s.sem, s.listRunner.length) =
      (none, false, .idle, min n semaphoreMaxCount, n) := by
  induction n with
  | zero => exact ⟨start, .init rfl, rfl⟩
  | succ n ih =>
      obtain ⟨s, hs, hv⟩ := ih
      simp only [Prod.mk.injEq] at hv
      obtain ⟨hl, he, ht, hq, hn⟩ := hv
      have hm : hatchReleaseSemaphore (min n semaphoreMaxCount) =
          min (n + 1) semaphoreMaxCount := by
        unfold hatchReleaseSemaphore
        split <;> omega
      refine hs.exists_run [.push () (), .enter (), .store (), .leave (), .release ()] _ ?_
      simp [TransitionSystem.run, machine, step, State.move, hl, he, ht, hq, hn, hm]

/-- The last of 0x900 pushes finds the semaphore at its maximum, and its runner is not
announced to anybody. -/
theorem stranded_runner : ∃ s : State Unit Unit, Reachable machine s ∧
    (∀ t, (s.stage t).pushing = false) ∧ s.event = false ∧
      ¬ s.listRunner.length ≤ s.sem + count Stage.awake s.stage := by
  obtain ⟨s, hs, hv⟩ := reachable_pushes 0x900
  simp only [Prod.mk.injEq] at hv
  obtain ⟨hl, he, ht, hq, hn⟩ := hv
  have hz : count Stage.awake s.stage = 0 := count_eq_zero (fun t => by rw [ht]; rfl)
  refine ⟨s, hs, fun t => by rw [ht]; rfl, he, ?_⟩
  rw [hz, hq, hn]
  decide

end Hatch.Pool
