import Hatch.Dispatcher
import Hatch.Inevitability

/-!
# When the shutdown of the dispatcher returns

No wake-up is lost: while the dispatcher sleeps and the queue is not empty, the server still has a
notification to make. Once `quit` is set there is no server any more, so a dispatcher that has
tested `quit` before and finds the queue empty waits for ever, and `shutdown` with it; in all
other states the dispatcher takes one more request at most, returns, and `shutdown` returns.
-/

namespace Hatch.Dir

open TransitionSystem

variable {R : Type}

inductive Change (s : State R) : Action R → State R → Prop
  | testServerQuit (h : s.server = .testing) :
      Change s .testServerQuit { s with server := if s.serverQuit then .exited else .polling }
  | pollError (h : s.server = .polling) : Change s .pollError { s with server := .testing }
  | poll (h : s.server = .polling) : Change s .poll { s with server := .serving }
  | receive (r : R) (h : s.server = .serving) :
      Change s (.receive r) { s with server := .entering r }
  | enterPut {r : R} (h : s.server = .entering r) (hm : s.mutex = none) :
      Change s .enterPut { s with server := .pushing r, mutex := some .server }
  | push {r : R} (h : s.server = .pushing r) : Change s .push
      { s with server := .leaving, queue := s.queue ++ [r], puts := s.puts ++ [r] }
  | leavePut (h : s.server = .leaving) :
      Change s .leavePut { s with server := .notifying, mutex := none }
  | notify (h : s.server = .notifying) :
      Change s .notify { s with server := .serving, dispatcher := s.dispatcher.notified }
  | served (h : s.server = .serving) : Change s .served { s with server := .testing }
  | testQuit (h : s.dispatcher = .testing) :
      Change s .testQuit { s with dispatcher := if s.quit then .returned else .entering }
  | enterTake (h : s.dispatcher = .entering) (hm : s.mutex = none) :
      Change s .enterTake { s with dispatcher := .checking, mutex := some .dispatcher }
  | sleep (h : s.dispatcher = .checking) (hq : s.queue = []) :
      Change s .check { s with dispatcher := .sleeping, mutex := none }
  | take {r : R} {q : List R} (h : s.dispatcher = .checking) (hq : s.queue = r :: q) :
      Change s .check { s with dispatcher := .taken r, queue := q }
  | wake (h : s.dispatcher = .sleeping) : Change s .wake { s with dispatcher := .entering }
  | leaveTake {r : R} (h : s.dispatcher = .taken r) :
      Change s .leaveTake { s with dispatcher := .processing r, mutex := none }
  | process {r : R} (h : s.dispatcher = .processing r) : Change s .process
      { s with dispatcher := .testing, processed := s.processed ++ [r] }
  | stopServer (h : s.shutdown = .idle) :
      Change s .stopServer { s with shutdown := .joiningServer, serverQuit := true }
  | joinServer (h : s.shutdown = .joiningServer) (hs : s.server = .exited) :
      Change s .joinServer { s with shutdown := .serverJoined }
  | setQuit (h : s.shutdown = .serverJoined) :
      Change s .setQuit { s with shutdown := .joining, quit := true }
  | join (h : s.shutdown = .joining) (hd : s.dispatcher = .returned) :
      Change s .join { s with shutdown := .done }

section Steps

variable {s t : State R} {a : Action R}

theorem change_of_serverStep (h : serverStep s a = some t) : Change s a t := by
  cases a with
  | testServerQuit | pollError | poll | receive | push | leavePut | notify | served =>
      simp only [serverStep] at h
      split at h
      · next hs =>
        cases h
        constructor
        exact hs
      · cases h
  | enterPut =>
      simp only [serverStep] at h
      split at h
      · next hs hm => exact Option.some.inj h ▸ .enterPut hs hm
      · cases h
  | testQuit | enterTake | check | wake | leaveTake | process | stopServer | joinServer | setQuit
  | join => cases h

theorem change_of_dispatcherStep (h : dispatcherStep s a = some t) : Change s a t := by
  cases a with
  | testQuit | wake | leaveTake | process =>
      simp only [dispatcherStep] at h
      split at h
      · next hd =>
        cases h
        constructor
        exact hd
      · cases h
  | enterTake =>
      simp only [dispatcherStep] at h
      split at h
      · next hd hm => exact Option.some.inj h ▸ .enterTake hd hm
      · cases h
  | check =>
      simp only [dispatcherStep] at h
      split at h
      · next hd hq => exact Option.some.inj h ▸ .sleep hd hq
      · next hd hq => exact Option.some.inj h ▸ .take hd hq
      · cases h
  | testServerQuit | pollError | poll | receive | enterPut | push | leavePut | notify | served
  | stopServer | joinServer | setQuit | join => cases h

theorem change_of_shutdownStep (h : shutdownStep s a = some t) : Change s a t := by
  cases a with
  | stopServer | setQuit =>
      simp only [shutdownStep] at h
      split at h
      · next hv =>
        cases h
        constructor
        exact hv
      · cases h
  | joinServer | join =>
      simp only [shutdownStep] at h
      split at h
      · next hv hw =>
        cases h
        constructor
        · exact hv
        · exact hw
      · cases h
  | testServerQuit | pollError | poll | receive | enterPut | push | leavePut | notify | served
  | testQuit | enterTake | check | wake | leaveTake | process => cases h

theorem change_of_step (h : step s a = some t) : Change s a t := by
  rcases step_cases h with h | h | h
  · exact change_of_serverStep h
  · exact change_of_dispatcherStep h
  · exact change_of_shutdownStep h

end Steps

def ServerStage.holds : ServerStage R → Bool
  | .pushing _ | .leaving => true
  | _ => false

def ServerStage.notifies : ServerStage R → Bool
  | .leaving | .notifying => true
  | _ => false

def DispatcherStage.holds : DispatcherStage R → Bool
  | .checking | .taken _ => true
  | _ => false

def DispatcherStage.waits : DispatcherStage R → Bool
  | .entering | .checking | .sleeping => true
  | _ => false

theorem holds_notified (d : DispatcherStage R) : d.notified.holds = d.holds := by
  cases d <;> rfl

theorem notified_ne_sleeping (d : DispatcherStage R) : d.notified ≠ .sleeping := by
  cases d <;> exact nofun

/-- Who has the mutex, that no notification is lost, and what `shutdown` knows. -/
structure Sync (s : State R) : Prop where
  server : s.server.holds = true ↔ s.mutex = some .server
  dispatcher : s.dispatcher.holds = true ↔ s.mutex = some .dispatcher
  awake : s.dispatcher = .sleeping → s.queue ≠ [] → s.server.notifies = true
  quit : s.quit = true → s.shutdown = .joining ∨ s.shutdown = .done
  done : s.shutdown = .done → s.dispatcher = .returned

theorem sync_start : Sync (start : State R) :=
  ⟨⟨nofun, nofun⟩, ⟨nofun, nofun⟩, nofun, nofun, nofun⟩

section Invariant

variable {s t : State R} {a : Action R}

/-- A step of the server outside the queue. -/
theorem Sync.setServer (h : Sync s) {v : ServerStage R} (hv : v.holds = s.server.holds)
    (hn : s.server.notifies = true → v.notifies = true) : Sync { s with server := v } :=
  ⟨hv ▸ h.server, h.dispatcher, fun hd hq => hn (h.awake hd hq), h.quit, h.done⟩

/-- A step of the dispatcher outside the queue. -/
theorem Sync.setDispatcher (h : Sync s) {d : DispatcherStage R}
    (hd : d.holds = s.dispatcher.holds) (hs : d ≠ .sleeping) (hr : s.dispatcher ≠ .returned) :
    Sync { s with dispatcher := d } :=
  ⟨h.server, hd ▸ h.dispatcher, fun he => absurd he hs, h.quit, fun hv => absurd (h.done hv) hr⟩

theorem Sync.step (h : Sync s) (he : Dir.step s a = some t) : Sync t := by
  cases change_of_step he with
  | testServerQuit hs =>
      refine h.setServer ?_ ?_
      · rw [hs]
        cases s.serverQuit <;> rfl
      · rw [hs]
        nofun
  | pollError hs | poll hs | receive r hs | served hs =>
      exact h.setServer (by rw [hs]; rfl) (by rw [hs]; nofun)
  | enterPut hs hm =>
      refine ⟨⟨fun _ => rfl, fun _ => rfl⟩, ?_, ?_, h.quit, h.done⟩
      · rw [h.dispatcher, hm]
        exact ⟨nofun, nofun⟩
      · intro hd hq
        have := h.awake hd hq
        rw [hs] at this
        cases this
  | push hs =>
      have hm := h.server.mp (by rw [hs]; rfl)
      exact ⟨⟨fun _ => hm, fun _ => rfl⟩, h.dispatcher, fun _ _ => rfl, h.quit, h.done⟩
  | leavePut hs =>
      have hm := h.server.mp (by rw [hs]; rfl)
      refine ⟨⟨nofun, nofun⟩, ?_, fun _ _ => rfl, h.quit, h.done⟩
      rw [h.dispatcher, hm]
      exact ⟨nofun, nofun⟩
  | notify hs =>
      refine ⟨?_, ?_, fun hd => absurd hd (notified_ne_sleeping _), h.quit, fun hv => ?_⟩
      · rw [← h.server, hs]
        rfl
      · rw [holds_notified]
        exact h.dispatcher
      · change s.dispatcher.notified = .returned
        rw [h.done hv]
        rfl
  | testQuit hd =>
      refine h.setDispatcher ?_ ?_ (by rw [hd]; nofun)
      · rw [hd]
        cases s.quit <;> rfl
      · cases s.quit <;> nofun
  | enterTake hd hm =>
      refine ⟨?_, ⟨fun _ => rfl, fun _ => rfl⟩, nofun, h.quit, fun hv => ?_⟩
      · rw [h.server, hm]
        exact ⟨nofun, nofun⟩
      · exact absurd (h.done hv) (by rw [hd]; nofun)
  | sleep hd hq =>
      have hm := h.dispatcher.mp (by rw [hd]; rfl)
      refine ⟨?_, ⟨nofun, nofun⟩, fun _ hne => absurd hq hne, h.quit, fun hv => ?_⟩
      · rw [h.server, hm]
        exact ⟨nofun, nofun⟩
      · exact absurd (h.done hv) (by rw [hd]; nofun)
  | take hd hq =>
      have hm := h.dispatcher.mp (by rw [hd]; rfl)
      exact ⟨h.server, ⟨fun _ => hm, fun _ => rfl⟩, nofun, h.quit,
        fun hv => absurd (h.done hv) (by rw [hd]; nofun)⟩
  | wake hd => exact h.setDispatcher (by rw [hd]; rfl) nofun (by rw [hd]; nofun)
  | leaveTake hd =>
      have hm := h.dispatcher.mp (by rw [hd]; rfl)
      refine ⟨?_, ⟨nofun, nofun⟩, nofun, h.quit, fun hv => ?_⟩
      · rw [h.server, hm]
        exact ⟨nofun, nofun⟩
      · exact absurd (h.done hv) (by rw [hd]; nofun)
  | process hd =>
      have hs := h.setDispatcher (d := .testing) (by rw [hd]; rfl) nofun (by rw [hd]; nofun)
      exact ⟨hs.server, hs.dispatcher, hs.awake, hs.quit, hs.done⟩
  | stopServer hv | joinServer hv =>
      refine ⟨h.server, h.dispatcher, h.awake, fun hq => ?_, nofun⟩
      rcases h.quit hq with hw | hw <;> rw [hv] at hw <;> cases hw
  | setQuit => exact ⟨h.server, h.dispatcher, h.awake, fun _ => .inl rfl, nofun⟩
  | join hv hd => exact ⟨h.server, h.dispatcher, h.awake, fun _ => .inr rfl, fun _ => hd⟩

theorem Sync.of_reaches {G : State R → Action R → Prop} (h : Reaches machine G s) : Sync s := by
  refine h.invariant ?_ ?_
  · rintro _ rfl
    exact sync_start
  · intro s a t hs _ he
    exact hs.step he

end Invariant

/-- While the dispatcher sleeps and there is a request in the queue, the server is between the put
and the notification. -/
theorem no_lost_wakeup {s : State R} (h : Reachable machine s) (hd : s.dispatcher = .sleeping)
    (hq : s.queue ≠ []) : s.server = .leaving ∨ s.server = .notifying := by
  have hn := (Sync.of_reaches h).awake hd hq
  cases hs : s.server with
  | leaving => exact .inl rfl
  | notifying => exact .inr rfl
  | testing | polling | serving | entering | pushing | exited =>
      rw [hs] at hn
      cases hn

theorem no_lost_wakeup_put : ∃ s : State ℕ, Reachable machine s ∧ s.dispatcher = .sleeping ∧
    s.queue = [7] ∧ (s.server = .leaving ∨ s.server = .notifying) := by
  have hr : ∃ s : State ℕ, Reachable machine s ∧ s.dispatcher = .sleeping ∧ s.queue = [7] :=
    Reaches.exists_of_run (.init rfl)
      [.testQuit, .enterTake, .check, .testServerQuit, .poll, .receive 7, .enterPut, .push,
        .leavePut] (by decide)
  obtain ⟨s, hs, hd, hq⟩ := hr
  exact ⟨s, hs, hd, hq, no_lost_wakeup hs hd (by rw [hq]; nofun)⟩

/-- The dispatcher waits for a request that nobody can put any more. -/
structure Stuck (s : State R) : Prop where
  sync : Sync s
  exited : s.server = .exited
  waits : s.dispatcher.waits = true
  empty : s.queue = []

section Shutdown

variable {s t : State R} {a : Action R}

theorem Stuck.step (h : Stuck s) (he : Dir.step s a = some t) : Stuck t := by
  have hs := h.sync.step he
  have hx := h.exited
  have hw := h.waits
  cases change_of_step he with
  | testServerQuit h' | pollError h' | poll h' | receive r h' | enterPut h' | push h' | leavePut h'
  | notify h' | served h' =>
      rw [hx] at h'
      cases h'
  | testQuit h' | leaveTake h' | process h' =>
      rw [h'] at hw
      cases hw
  | take h' hq =>
      rw [h.empty] at hq
      cases hq
  | enterTake | sleep | wake => exact ⟨hs, hx, rfl, h.empty⟩
  | stopServer | joinServer | setQuit | join => exact ⟨hs, hx, hw, h.empty⟩

/-- `quit` is set, and a dispatcher that waits has a request to take. -/
structure Ending (s : State R) : Prop where
  inv : Inv s
  sync : Sync s
  quit : s.quit = true
  moves : s.dispatcher.waits = true → s.queue ≠ []

theorem Ending.exited (h : Ending s) : s.server = .exited := h.inv.exited (h.inv.pastServer h.quit)

theorem Ending.ne_sleeping (h : Ending s) : s.dispatcher ≠ .sleeping := by
  intro hd
  have hn := h.sync.awake hd (h.moves (by rw [hd]; rfl))
  rw [h.exited] at hn
  cases hn

/-- The steps the dispatcher and then `shutdown` have before them. -/
def DispatcherStage.left : DispatcherStage R → ℕ
  | .sleeping => 7
  | .entering => 6
  | .checking => 5
  | .taken _ => 4
  | .processing _ => 3
  | .testing => 2
  | .returned => 1

def State.left (s : State R) : ℕ := if s.shutdown = .done then 0 else s.dispatcher.left

theorem Ending.step (h : Ending s) (hv : s.shutdown ≠ .done) (he : Dir.step s a = some t) :
    Ending t ∧ t.left < s.left := by
  have hi := h.inv.step he
  have hs := h.sync.step he
  have hx := h.exited
  have hj : s.shutdown = .joining := (h.sync.quit h.quit).resolve_right hv
  have hleft : s.left = s.dispatcher.left := if_neg hv
  cases change_of_step he with
  | testServerQuit h' | pollError h' | poll h' | receive r h' | enterPut h' | push h' | leavePut h'
  | notify h' | served h' =>
      rw [hx] at h'
      cases h'
  | stopServer h' | joinServer h' | setQuit h' =>
      rw [hj] at h'
      cases h'
  | wake hd => exact absurd hd h.ne_sleeping
  | sleep hd hq => exact absurd hq (h.moves (by rw [hd]; rfl))
  | testQuit hd =>
      refine ⟨⟨hi, hs, h.quit, ?_⟩, ?_⟩
      · change (if s.quit then _ else _ : DispatcherStage R).waits = true → _
        rw [if_pos h.quit]
        nofun
      · rw [hleft, hd, State.left, if_neg hv]
        change (if s.quit then _ else _ : DispatcherStage R).left < 2
        rw [if_pos h.quit]
        exact Nat.lt_succ_self 1
  | enterTake hd =>
      rw [hleft, hd, State.left, if_neg hv]
      exact ⟨⟨hi, hs, h.quit, fun _ => h.moves (by rw [hd]; rfl)⟩, Nat.lt_succ_self 5⟩
  | take hd =>
      rw [hleft, hd, State.left, if_neg hv]
      exact ⟨⟨hi, hs, h.quit, nofun⟩, Nat.lt_succ_self 4⟩
  | leaveTake hd =>
      rw [hleft, hd, State.left, if_neg hv]
      exact ⟨⟨hi, hs, h.quit, nofun⟩, Nat.lt_succ_self 3⟩
  | process hd =>
      rw [hleft, hd, State.left, if_neg hv]
      exact ⟨⟨hi, hs, h.quit, nofun⟩, Nat.lt_succ_self 2⟩
  | join _ hd =>
      refine ⟨⟨hi, hs, h.quit, ?_⟩, ?_⟩
      · change s.dispatcher.waits = true → _
        rw [hd]
        nofun
      · rw [hleft, hd, State.left, if_pos rfl]
        exact Nat.lt_succ_self 0

/-- The mutex is free for a dispatcher that enters the queue. -/
theorem Ending.mutex (h : Ending s) (hd : s.dispatcher = .entering) : s.mutex = none := by
  cases hm : s.mutex with
  | none => rfl
  | some u =>
      cases u with
      | server =>
          have hs := h.sync.server.mpr hm
          rw [h.exited] at hs
          cases hs
      | dispatcher =>
          have hs := h.sync.dispatcher.mpr hm
          rw [hd] at hs
          cases hs

theorem Ending.enabled (h : Ending s) (hv : s.shutdown ≠ .done) :
    ∃ a t, a ≠ Action.wake ∧ Dir.step s a = some t := by
  have hj : s.shutdown = .joining := (h.sync.quit h.quit).resolve_right hv
  cases hd : s.dispatcher with
  | testing =>
      exact ⟨.testQuit, _, by simp, by simp [Dir.step, serverStep, dispatcherStep, hd]; rfl⟩
  | entering =>
      exact ⟨.enterTake, _, by simp, by
        simp [Dir.step, serverStep, dispatcherStep, hd, h.mutex hd]; rfl⟩
  | checking =>
      obtain ⟨r, q, hq⟩ := List.exists_cons_of_ne_nil (h.moves (by rw [hd]; rfl))
      exact ⟨.check, _, by simp, by simp [Dir.step, serverStep, dispatcherStep, hd, hq]; rfl⟩
  | sleeping => exact absurd hd h.ne_sleeping
  | taken r =>
      exact ⟨.leaveTake, _, by simp, by simp [Dir.step, serverStep, dispatcherStep, hd]; rfl⟩
  | processing r =>
      exact ⟨.process, _, by simp, by simp [Dir.step, serverStep, dispatcherStep, hd]; rfl⟩
  | returned =>
      exact ⟨.join, _, by simp, by
        simp [Dir.step, serverStep, dispatcherStep, shutdownStep, hd, hj]; rfl⟩

end Shutdown

end Hatch.Dir
