import Hatch.NetProcess
import Hatch.ThreadCount
import Hatch.TransitionSystem

/-!
# A message list under concurrency

`CHatchMsgList` as atomic steps of any number of threads on the semaphore, the
lock and the queue of one list. A producer enters the lock, releases the semaphore,
stores the message only if that succeeded, and leaves; the group send repeats this
for each of its copies. (It also holds the lock of the user list, which only takes
interleavings away.) A consumer is woken by the semaphore before it enters the lock.
-/

namespace Hatch.Net.MsgList

open TransitionSystem ThreadCount

/-- Where a thread stands; `rest` are the copies a group send has still to push. -/
inductive Stage (M : Type)
  | idle
  | entering (m : M) (rest : List M)
  | releasing (m : M) (rest : List M)
  | storing (m : M) (rest : List M)
  | leaving (stored : Option M) (rest : List M)
  | woken
  | popping
  | popped
  deriving DecidableEq

/-- `returned` lists the messages whose push returned 0 and `taken` those popped. -/
structure State (M T : Type) where
  sem : ℕ
  lock : Option T
  queue : List M
  stage : T → Stage M
  returned : List M
  taken : List M

inductive Action (M T : Type)
  | push (t : T) (m : M)
  | pushGroup (t : T) (ms : List M)
  | enter (t : T)
  | release (t : T)
  | store (t : T)
  | leave (t : T)
  | wait (t : T)
  | enterPop (t : T)
  | pop (t : T)
  | leavePop (t : T)

variable {M T : Type} [DecidableEq T]

def Stage.next : List M → Stage M
  | [] => .idle
  | m :: rest => .entering m rest

def State.move (s : State M T) (t : T) (p : Stage M) : State M T :=
  { s with stage := Function.update s.stage t p }

/-- A step is disabled while its thread is elsewhere, while the lock it needs is held or
while the semaphore it waits for is 0. `front` of an empty queue has no successor. -/
def step (s : State M T) : Action M T → Option (State M T)
  | .push t m => match s.stage t with
      | .idle => some (s.move t (.entering m []))
      | _ => none
  | .pushGroup t ms => match s.stage t with
      | .idle => some (s.move t (.next ms))
      | _ => none
  | .enter t => match s.stage t, s.lock with
      | .entering m rest, none => some ({ s with lock := some t }.move t (.releasing m rest))
      | _, _ => none
  | .release t => match s.stage t with
      | .releasing m rest =>
          if s.sem < netMessageListMaxLength
            then some ({ s with sem := s.sem + 1 }.move t (.storing m rest))
            else some (s.move t (.leaving none rest))
      | _ => none
  | .store t => match s.stage t with
      | .storing m rest =>
          some ({ s with queue := s.queue ++ [m] }.move t (.leaving (some m) rest))
      | _ => none
  | .leave t => match s.stage t with
      | .leaving stored rest =>
          some ({ s with lock := none, returned := s.returned ++ stored.toList }.move t
            (.next rest))
      | _ => none
  | .wait t => match s.stage t with
      | .idle => if 0 < s.sem then some ({ s with sem := s.sem - 1 }.move t .woken) else none
      | _ => none
  | .enterPop t => match s.stage t, s.lock with
      | .woken, none => some ({ s with lock := some t }.move t .popping)
      | _, _ => none
  | .pop t => match s.stage t, s.queue with
      | .popping, m :: rest =>
          some ({ s with queue := rest, taken := s.taken ++ [m] }.move t .popped)
      | _, _ => none
  | .leavePop t => match s.stage t with
      | .popped => some ({ s with lock := none }.move t .idle)
      | _ => none

def start : State M T where
  sem := 0
  lock := none
  queue := []
  stage := fun _ => .idle
  returned := []
  taken := []

def machine : Machine (State M T) (Action M T) where
  init s := s = start
  step := step

def Stage.locked : Stage M → Bool
  | .releasing .. | .storing .. | .leaving .. | .popping | .popped => true
  | _ => false

/-- The semaphore has been raised for a message that is not yet stored. -/
def Stage.ahead : Stage M → Bool
  | .storing .. => true
  | _ => false

/-- The semaphore has been lowered for a message that is not yet popped. -/
def Stage.awake : Stage M → Bool
  | .woken | .popping => true
  | _ => false

def Stage.stored : Stage M → List M
  | .leaving m _ => m.toList
  | _ => []

/-- Every way in which the state can change, with the stage that the thread leaves. -/
inductive Change (s : State M T) : State M T → Prop
  | start (t : T) (p : Stage M) (ht : s.stage t = .idle)
      (hp : p = .idle ∨ ∃ m r, p = .entering m r) : Change s (s.move t p)
  | enter (t : T) (m : M) (r : List M) (ht : s.stage t = .entering m r) (hl : s.lock = none) :
      Change s ({ s with lock := some t }.move t (.releasing m r))
  | release (t : T) (m : M) (r : List M) (ht : s.stage t = .releasing m r) :
      Change s ({ s with sem := s.sem + 1 }.move t (.storing m r))
  | refuse (t : T) (m : M) (r : List M) (ht : s.stage t = .releasing m r) :
      Change s (s.move t (.leaving none r))
  | store (t : T) (m : M) (r : List M) (ht : s.stage t = .storing m r) :
      Change s ({ s with queue := s.queue ++ [m] }.move t (.leaving (some m) r))
  | leave (t : T) (o : Option M) (r : List M) (p : Stage M) (ht : s.stage t = .leaving o r)
      (hp : p = .idle ∨ ∃ m r, p = .entering m r) :
      Change s ({ s with lock := none, returned := s.returned ++ o.toList }.move t p)
  | wait (t : T) (ht : s.stage t = .idle) (h : 0 < s.sem) :
      Change s ({ s with sem := s.sem - 1 }.move t .woken)
  | enterPop (t : T) (ht : s.stage t = .woken) (hl : s.lock = none) :
      Change s ({ s with lock := some t }.move t .popping)
  | pop (t : T) (m : M) (q : List M) (ht : s.stage t = .popping) (hq : s.queue = m :: q) :
      Change s ({ s with queue := q, taken := s.taken ++ [m] }.move t .popped)
  | leavePop (t : T) (ht : s.stage t = .popped) :
      Change s ({ s with lock := none }.move t .idle)

theorem Stage.next_eq (ms : List M) :
    Stage.next ms = .idle ∨ ∃ m r, Stage.next ms = .entering m r := by
  cases ms with
  | nil => exact .inl rfl
  | cons m r => exact .inr ⟨m, r, rfl⟩

theorem change_of_step {s s' : State M T} {a : Action M T} (h : step s a = some s') :
    Change s s' := by
  cases a with
  | push t m =>
      simp only [step] at h
      split at h
      · rename_i ht
        exact Option.some.inj h ▸ .start t _ ht (.inr ⟨m, [], rfl⟩)
      · cases h
  | pushGroup t ms =>
      simp only [step] at h
      split at h
      · rename_i ht
        exact Option.some.inj h ▸ .start t _ ht (Stage.next_eq ms)
      · cases h
  | enter t =>
      simp only [step] at h
      split at h
      · rename_i m r ht hl
        exact Option.some.inj h ▸ .enter t m r ht hl
      · cases h
  | release t =>
      simp only [step] at h
      split at h
      · rename_i m r ht
        split at h
        · exact Option.some.inj h ▸ .release t m r ht
        · exact Option.some.inj h ▸ .refuse t m r ht
      · cases h
  | store t =>
      simp only [step] at h
      split at h
      · rename_i m r ht
        exact Option.some.inj h ▸ .store t m r ht
      · cases h
  | leave t =>
      simp only [step] at h
      split at h
      · rename_i o r ht
        exact Option.some.inj h ▸ .leave t o r _ ht (Stage.next_eq r)
      · cases h
  | wait t =>
      simp only [step] at h
      split at h
      · rename_i ht
        split at h
        · rename_i hs
          exact Option.some.inj h ▸ .wait t ht hs
        · cases h
      · cases h
  | enterPop t =>
      simp only [step] at h
      split at h
      · rename_i ht hl
        exact Option.some.inj h ▸ .enterPop t ht hl
      · cases h
  | pop t =>
      simp only [step] at h
      split at h
      · rename_i m q ht hq
        exact Option.some.inj h ▸ .pop t m q ht hq
      · cases h
  | leavePop t =>
      simp only [step] at h
      split at h
      · rename_i ht
        exact Option.some.inj h ▸ .leavePop t ht
      · cases h

/-- The lock is held by the thread that is inside it. -/
def Exclusive (l : Option T) (f : T → Stage M) : Prop := ∀ t, (f t).locked = true ↔ l = some t

/-- The message that the holder of the lock has stored and not yet returned. -/
def pending (l : Option T) (f : T → Stage M) : List M :=
  match l with
  | some t => (f t).stored
  | none => []

section Lock

variable {l : Option T} {f : T → Stage M} {t : T} {p : Stage M}

omit [DecidableEq T] in
theorem Exclusive.lock_eq (h : Exclusive l f) (ht : (f t).locked = true) : l = some t :=
  (h t).mp ht

omit [DecidableEq T] in
theorem Exclusive.lock_ne (h : Exclusive l f) (ht : (f t).locked = false) : l ≠ some t := by
  intro hl
  rw [(h t).mpr hl] at ht
  cases ht

theorem Exclusive.update {l' : Option T} (h : Exclusive l f) (ht : p.locked = true ↔ l' = some t)
    (hu : ∀ u, u ≠ t → (l' = some u ↔ l = some u)) : Exclusive l' (Function.update f t p) := by
  intro u
  by_cases he : u = t
  · subst he
    rw [Function.update_self]
    exact ht
  · rw [Function.update_of_ne he, hu u he]
    exact h u

theorem Exclusive.stay (h : Exclusive l f) (hp : p.locked = (f t).locked) :
    Exclusive l (Function.update f t p) :=
  h.update (hp ▸ h t) (fun _ _ => Iff.rfl)

theorem Exclusive.enter (h : Exclusive none f) (hp : p.locked = true) :
    Exclusive (some t) (Function.update f t p) := by
  refine h.update (iff_of_true hp rfl) ?_
  intro u hu
  simp [hu.symm]

theorem Exclusive.leave (h : Exclusive (some t) f) (hp : p.locked = false) :
    Exclusive none (Function.update f t p) := by
  refine h.update (by simp [hp]) ?_
  intro u hu
  simp [hu.symm]

theorem pending_update_self : pending (some t) (Function.update f t p) = p.stored := by
  simp [pending]

theorem pending_update_of_ne (h : l ≠ some t) :
    pending l (Function.update f t p) = pending l f := by
  cases l with
  | none => rfl
  | some u =>
      have hu : u ≠ t := fun he => h (he ▸ rfl)
      simp [pending, Function.update_of_ne hu]

end Lock

/-- Half-done producers make up for the queue being shorter than the semaphore and the
awake consumers promise. -/
def Balanced [Fintype T] (n q : ℕ) (f : T → Stage M) : Prop :=
  n + count Stage.ahead f = q + count Stage.awake f

theorem Balanced.update [Fintype T] {n n' q q' : ℕ} {f : T → Stage M} {t : T} {p : Stage M}
    (h : Balanced n q f) (he : n' + q + ind p.ahead + ind (f t).awake =
      n + q' + ind p.awake + ind (f t).ahead) : Balanced n' q' (Function.update f t p) := by
  have h1 := count_update Stage.ahead f t p
  have h2 := count_update Stage.awake f t p
  unfold Balanced at h ⊢
  omega

/-- `order` says that the queue is what has been returned and not yet taken, followed by
the message about to be returned. -/
structure Inv [Fintype T] (s : State M T) : Prop where
  exclusive : Exclusive s.lock s.stage
  balanced : Balanced s.queue.length s.sem s.stage
  order : ∃ q, s.queue = q ++ pending s.lock s.stage ∧ s.taken ++ q = s.returned

variable {s s' : State M T}

theorem Change.exclusive (h : Change s s') (hi : Exclusive s.lock s.stage) :
    Exclusive s'.lock s'.stage := by
  cases h with
  | start t p ht hp =>
      apply hi.stay
      rcases hp with rfl | ⟨m, r, rfl⟩ <;> simp [ht, Stage.locked]
  | enter t m r ht hl => exact (hl ▸ hi).enter rfl
  | release t m r ht => exact hi.stay (by rw [ht]; rfl)
  | refuse t m r ht => exact hi.stay (by rw [ht]; rfl)
  | store t m r ht => exact hi.stay (by rw [ht]; rfl)
  | leave t o r p ht hp =>
      have hl := hi.lock_eq (t := t) (by rw [ht]; rfl)
      apply (hl ▸ hi).leave
      rcases hp with rfl | ⟨m, r, rfl⟩ <;> rfl
  | wait t ht hs => exact hi.stay (by rw [ht]; rfl)
  | enterPop t ht hl => exact (hl ▸ hi).enter rfl
  | pop t m q ht hq => exact hi.stay (by rw [ht]; rfl)
  | leavePop t ht =>
      have hl := hi.lock_eq (t := t) (by rw [ht]; rfl)
      exact (hl ▸ hi).leave rfl

theorem Change.balanced [Fintype T] (h : Change s s') (hi : Balanced s.queue.length s.sem s.stage) :
    Balanced s'.queue.length s'.sem s'.stage := by
  cases h with
  | start t p ht hp =>
      apply hi.update
      rcases hp with rfl | ⟨m, r, rfl⟩ <;> rw [ht] <;> rfl
  | enter t m r ht hl => exact hi.update (by rw [ht]; rfl)
  | release t m r ht =>
      apply hi.update
      rw [ht]
      simp only [State.move, Stage.ahead, Stage.awake, ind_true, ind_false]
      omega
  | refuse t m r ht => exact hi.update (by rw [ht]; rfl)
  | store t m r ht =>
      apply hi.update
      rw [ht]
      simp only [State.move, Stage.ahead, Stage.awake, ind_true, ind_false, List.length_append,
        List.length_singleton]
      omega
  | leave t o r p ht hp =>
      apply hi.update
      rcases hp with rfl | ⟨m, r, rfl⟩ <;> rw [ht] <;> rfl
  | wait t ht hs =>
      apply hi.update
      rw [ht]
      simp only [State.move, Stage.ahead, Stage.awake, ind_true, ind_false]
      omega
  | enterPop t ht hl => exact hi.update (by rw [ht]; rfl)
  | pop t m q ht hq =>
      apply hi.update
      rw [ht, hq]
      simp only [State.move, Stage.ahead, Stage.awake, ind_true, ind_false, List.length_cons]
      omega
  | leavePop t ht => exact hi.update (by rw [ht]; rfl)

theorem Change.order (h : Change s s') (he : Exclusive s.lock s.stage)
    (hi : ∃ q, s.queue = q ++ pending s.lock s.stage ∧ s.taken ++ q = s.returned) :
    ∃ q, s'.queue = q ++ pending s'.lock s'.stage ∧ s'.taken ++ q = s'.returned := by
  obtain ⟨q, hq, hr⟩ := hi
  -- a thread inside the lock is its holder, so its stage determines what is pending
  have hin {t : T} {p : Stage M} (ht : s.stage t = p) (hp : p.locked = true) :
      s.lock = some t ∧ s.queue = q ++ p.stored := by
    have hl := he.lock_eq (t := t) (by rw [ht, hp])
    rw [hl, pending, ht] at hq
    exact ⟨hl, hq⟩
  cases h with
  | start t p ht hp =>
      have hl := he.lock_ne (t := t) (by rw [ht]; rfl)
      exact ⟨q, by rw [State.move, pending_update_of_ne hl]; exact hq, hr⟩
  | enter t m r ht hl =>
      rw [hl] at hq
      exact ⟨q, by rw [State.move, pending_update_self]; exact hq, hr⟩
  | release t m r ht =>
      obtain ⟨hl, hq'⟩ := hin ht rfl
      exact ⟨q, by rw [State.move, hl, pending_update_self]; exact hq', hr⟩
  | refuse t m r ht =>
      obtain ⟨hl, hq'⟩ := hin ht rfl
      exact ⟨q, by rw [State.move, hl, pending_update_self]; exact hq', hr⟩
  | store t m r ht =>
      obtain ⟨hl, hq'⟩ := hin ht rfl
      have hqq : s.queue = q := by simpa [Stage.stored] using hq'
      exact ⟨q, by rw [State.move, hl, pending_update_self, hqq]; rfl, hr⟩
  | leave t o r p ht hp =>
      obtain ⟨hl, hq'⟩ := hin ht rfl
      have hqq : s.queue = q ++ o.toList := hq'
      refine ⟨s.queue, (List.append_nil _).symm, ?_⟩
      change s.taken ++ s.queue = s.returned ++ o.toList
      rw [hqq, ← List.append_assoc, hr]
  | wait t ht hs =>
      have hl := he.lock_ne (t := t) (by rw [ht]; rfl)
      exact ⟨q, by rw [State.move, pending_update_of_ne hl]; exact hq, hr⟩
  | enterPop t ht hl =>
      rw [hl] at hq
      exact ⟨q, by rw [State.move, pending_update_self]; exact hq, hr⟩
  | pop t m q' ht hm =>
      obtain ⟨hl, hq'⟩ := hin ht rfl
      have hqq : q = m :: q' := by simpa [Stage.stored, hm] using hq'.symm
      refine ⟨q', ?_, ?_⟩
      · rw [State.move, hl, pending_update_self]
        exact (List.append_nil _).symm
      · change s.taken ++ [m] ++ q' = s.returned
        rw [List.append_assoc, List.singleton_append, ← hqq, hr]
  | leavePop t ht =>
      obtain ⟨hl, hq'⟩ := hin ht rfl
      exact ⟨q, hq', hr⟩

omit [DecidableEq T] in
theorem Inv.start [Fintype T] : Inv (MsgList.start : State M T) := by
  refine ⟨?_, ?_, [], rfl, rfl⟩
  · intro t
    simp [MsgList.start, Stage.locked]
  · unfold Balanced
    rw [count_eq_zero (fun _ => rfl), count_eq_zero (fun _ => rfl)]
    rfl

theorem Inv.step [Fintype T] (h : Inv s) (hc : Change s s') : Inv s' :=
  ⟨hc.exclusive h.exclusive, hc.balanced h.balanced, hc.order h.exclusive h.order⟩

theorem inv_of_reachable [Fintype T] (h : Reachable machine s) : Inv s := by
  refine Reaches.invariant ?_ ?_ h
  · rintro _ rfl
    exact Inv.start
  · intro s a s' hs _ he
    exact hs.step (change_of_step he)

omit [DecidableEq T] in
/-- While a consumer is about to pop, no producer is between its release and its store. -/
theorem Inv.ahead_eq_zero [Fintype T] (h : Inv s) {t : T} (ht : s.stage t = .popping) :
    count Stage.ahead s.stage = 0 := by
  have hl := h.exclusive.lock_eq (t := t) (by rw [ht]; rfl)
  apply count_eq_zero
  intro u
  by_contra hu
  have hs : (s.stage u).locked = true := by
    cases hp : s.stage u <;> simp_all [Stage.ahead, Stage.locked]
  have he : t = u := Option.some.inj (hl.symm.trans (h.exclusive.lock_eq hs))
  subst he
  simp [ht, Stage.ahead] at hu

theorem Inv.queue_ne_nil [Fintype T] (h : Inv s) {t : T} (ht : s.stage t = .popping) :
    s.queue ≠ [] := by
  intro hq
  have hb := h.balanced
  have hp : 0 < count Stage.awake s.stage := count_pos (t := t) (by rw [ht]; rfl)
  rw [Balanced, h.ahead_eq_zero ht, hq, List.length_nil] at hb
  omega

omit [DecidableEq T] in
theorem Inv.taken_prefix [Fintype T] (h : Inv s) : s.taken <+: s.returned := by
  obtain ⟨q, -, hr⟩ := h.order
  exact ⟨q, hr⟩

/-- For any number of threads and any interleaving, a consumer that pops finds a message,
and the popped messages are a prefix of those whose push returned 0. -/
theorem queue_exact {M T : Type} [DecidableEq T] [Fintype T] {s : State M T}
    (h : Reachable machine s) :
    (∀ t, s.stage t = .popping → s.queue ≠ []) ∧ s.taken <+: s.returned := by
  have hi := inv_of_reachable h
  exact ⟨fun t ht => hi.queue_ne_nil ht, hi.taken_prefix⟩

/-- Two threads pass a message: the consumer is woken before the message is stored. -/
theorem queue_exact_handover :
    ∃ s : State ℕ Bool, Reachable machine s ∧ s.stage true = .popping ∧ s.queue ≠ [] ∧
      s.taken <+: s.returned := by
  have hr : ∃ s : State ℕ Bool, Reachable machine s ∧ s.stage true = .popping :=
    Reaches.exists_of_run (.init rfl) [.push false 7, .enter false, .release false, .wait true,
      .store false, .leave false, .enterPop true] (by decide +kernel)
  obtain ⟨s, hs, hp⟩ := hr
  obtain ⟨hq, ht⟩ := queue_exact hs
  exact ⟨s, hs, hp, hq true hp, ht⟩

section Undisturbed

variable {s : State ByteLayout.Bytes T} {t : T} (ht : s.stage t = .idle) (hl : s.lock = none)
include ht hl

/-- A push that no other thread interrupts is the atomic `MsgQueue.push`. -/
theorem run_push_undisturbed (m : ByteLayout.Bytes) (k : ℕ) :
    (run machine s (if s.sem < netMessageListMaxLength
      then [.push t m, .enter t, .release t, .store t, .leave t]
      else [.push t m, .enter t, .release t, .leave t])).map (fun s => (s.sem, s.queue)) =
      some ((MsgQueue.push ⟨s.sem, s.queue, k⟩ m).2.sem,
        (MsgQueue.push ⟨s.sem, s.queue, k⟩ m).2.list) := by
  by_cases hq : s.sem < netMessageListMaxLength
  · simp [run, machine, step, MsgQueue.push, State.move, ht, hl, hq]
  · simp [run, machine, step, MsgQueue.push, State.move, ht, hl, hq]

/-- A wait and a pop that no other thread interrupts are the atomic `MsgQueue.pop`. -/
theorem run_pop_undisturbed (k : ℕ) :
    (run machine s [.wait t, .enterPop t, .pop t, .leavePop t]).map (fun s => (s.sem, s.queue)) =
      (MsgQueue.pop ⟨s.sem, s.queue, k⟩).map (fun r => (r.2.sem, r.2.list)) := by
  cases hs : s.sem with
  | zero => simp [run, machine, step, MsgQueue.pop, ht, hs]
  | succ n =>
      cases hq : s.queue with
      | nil => simp [run, machine, step, MsgQueue.pop, State.move, ht, hl, hs, hq]
      | cons m q => simp [run, machine, step, MsgQueue.pop, State.move, ht, hl, hs, hq]

end Undisturbed

end Hatch.Net.MsgList
