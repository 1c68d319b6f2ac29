import Hatch.TransitionSystem
import Mathlib.Data.Nat.Notation

/-!
# The request dispatcher and its shutdown

Three threads as atomic steps. The server thread tests its flag, waits for events and puts
the requests it reads into the blocking queue; the dispatcher tests `quit`, takes a request
and processes it; and `shutdown` sets the flag of the server, joins it, sets `quit` and joins
the dispatcher. Requests taken and requests put are kept as histories.
-/

namespace Hatch.Dir

open TransitionSystem

inductive Thread where
  | server
  | dispatcher
  deriving DecidableEq

/-- `CRPCNIOSocketServer::run`, down to the parts of `CBlockingQueue::put`. -/
inductive ServerStage (R : Type) where
  | testing
  | polling
  | serving
  | entering (r : R)
  | pushing (r : R)
  | leaving
  | notifying
  | exited
  deriving DecidableEq

/-- `CDIRRequestDispatcher::run`, down to the parts of `CBlockingQueue::take`. -/
inductive DispatcherStage (R : Type) where
  | testing
  | entering
  | checking
  | sleeping
  | taken (r : R)
  | processing (r : R)
  | returned
  deriving DecidableEq

inductive ShutdownStage where
  | idle
  | joiningServer
  | serverJoined
  | joining
  | done
  deriving DecidableEq

structure State (R : Type) where
  mutex : Option Thread
  queue : List R
  serverQuit : Bool
  quit : Bool
  server : ServerStage R
  dispatcher : DispatcherStage R
  shutdown : ShutdownStage
  puts : List R
  processed : List R
  deriving DecidableEq

inductive Action (R : Type) where
  | testServerQuit
  | pollError
  | poll
  | receive (r : R)
  | enterPut
  | push
  | leavePut
  | notify
  | served
  | testQuit
  | enterTake
  | check
  | wake
  | leaveTake
  | process
  | stopServer
  | joinServer
  | setQuit
  | join

variable {R : Type}

def DispatcherStage.notified : DispatcherStage R → DispatcherStage R
  | .sleeping => .entering
  | d => d

def serverStep (s : State R) : Action R → Option (State R)
  | .testServerQuit => match s.server with
      | .testing => some { s with server := if s.serverQuit then .exited else .polling }
      | _ => none
  | .pollError => match s.server with
      | .polling => some { s with server := .testing }
      | _ => none
  | .poll => match s.server with
      | .polling => some { s with server := .serving }
      | _ => none
  | .receive r => match s.server with
      | .serving => some { s with server := .entering r }
      | _ => none
  | .enterPut => match s.server, s.mutex with
      | .entering r, none => some { s with server := .pushing r, mutex := some .server }
      | _, _ => none
  | .push => match s.server with
      | .pushing r => some { s with
          server := .leaving, queue := s.queue ++ [r], puts := s.puts ++ [r] }
      | _ => none
  | .leavePut => match s.server with
      | .leaving => some { s with server := .notifying, mutex := none }
      | _ => none
  | .notify => match s.server with
      | .notifying => some { s with server := .serving, dispatcher := s.dispatcher.notified }
      | _ => none
  | .served => match s.server with
      | .serving => some { s with server := .testing }
      | _ => none
  | _ => none

/-- The steps of the dispatcher. The wait may end without a notification. -/
def dispatcherStep (s : State R) : Action R → Option (State R)
  | .testQuit => match s.dispatcher with
      | .testing => some { s with dispatcher := if s.quit then .returned else .entering }
      | _ => none
  | .enterTake => match s.dispatcher, s.mutex with
      | .entering, none => some { s with dispatcher := .checking, mutex := some .dispatcher }
      | _, _ => none
  | .check => match s.dispatcher, s.queue with
      | .checking, [] => some { s with dispatcher := .sleeping, mutex := none }
      | .checking, r :: queue => some { s with dispatcher := .taken r, queue := queue }
      | _, _ => none
  | .wake => match s.dispatcher with
      | .sleeping => some { s with dispatcher := .entering }
      | _ => none
  | .leaveTake => match s.dispatcher with
      | .taken r => some { s with dispatcher := .processing r, mutex := none }
      | _ => none
  | .process => match s.dispatcher with
      | .processing r => some { s with dispatcher := .testing, processed := s.processed ++ [r] }
      | _ => none
  | _ => none

def shutdownStep (s : State R) : Action R → Option (State R)
  | .stopServer => match s.shutdown with
      | .idle => some { s with shutdown := .joiningServer, serverQuit := true }
      | _ => none
  | .joinServer => match s.shutdown, s.server with
      | .joiningServer, .exited => some { s with shutdown := .serverJoined }
      | _, _ => none
  | .setQuit => match s.shutdown with
      | .serverJoined => some { s with shutdown := .joining, quit := true }
      | _ => none
  | .join => match s.shutdown, s.dispatcher with
      | .joining, .returned => some { s with shutdown := .done }
      | _, _ => none
  | _ => none

def step (s : State R) (a : Action R) : Option (State R) :=
  (serverStep s a).or ((dispatcherStep s a).or (shutdownStep s a))

def start : State R where
  mutex := none
  queue := []
  serverQuit := false
  quit := false
  server := .testing
  dispatcher := .testing
  shutdown := .idle
  puts := []
  processed := []

def machine : Machine (State R) (Action R) where
  init s := s = start
  step := step

def DispatcherStage.inHand : DispatcherStage R → List R
  | .taken r | .processing r => [r]
  | _ => []

def ShutdownStage.pastServer : ShutdownStage → Bool
  | .idle | .joiningServer => false
  | .serverJoined | .joining | .done => true

theorem inHand_notified (d : DispatcherStage R) : d.notified.inHand = d.inHand := by
  cases d <;> rfl

theorem notified_eq_returned {d : DispatcherStage R} (h : d.notified = .returned) :
    d = .returned := by
  cases d with
  | sleeping => cases h
  | testing | entering | checking | taken | processing | returned => exact h

variable {s t : State R} {a : Action R}

/-- A server that takes a step has not exited, and the step puts one request or none. -/
theorem serverStep_cases (h : serverStep s a = some t) : s.server ≠ .exited ∧
    ((∃ v m d, t = { s with server := v, mutex := m, dispatcher := d } ∧
        d.inHand = s.dispatcher.inHand ∧ (d = .returned → s.dispatcher = .returned)) ∨
      ∃ r v, t = { s with server := v, queue := s.queue ++ [r], puts := s.puts ++ [r] }) := by
  cases a with
  | testServerQuit | pollError | poll | receive | leavePut | served =>
      simp only [serverStep] at h
      split at h
      · rename_i hv
        exact ⟨by rw [hv]; nofun, .inl ⟨_, _, _, (Option.some.inj h).symm, rfl, id⟩⟩
      · cases h
  | enterPut =>
      simp only [serverStep] at h
      split at h
      · rename_i r hv hm
        exact ⟨by rw [hv]; nofun, .inl ⟨_, _, _, (Option.some.inj h).symm, rfl, id⟩⟩
      · cases h
  | push =>
      simp only [serverStep] at h
      split at h
      · rename_i r hv
        exact ⟨by rw [hv]; nofun, .inr ⟨r, _, (Option.some.inj h).symm⟩⟩
      · cases h
  | notify =>
      simp only [serverStep] at h
      split at h
      · rename_i hv
        refine ⟨by rw [hv]; nofun, .inl ⟨_, s.mutex, _, (Option.some.inj h).symm, ?_, ?_⟩⟩
        · exact inHand_notified _
        · exact notified_eq_returned
      · cases h
  | testQuit | enterTake | check | wake | leaveTake | process | stopServer | joinServer | setQuit
  | join => cases h

/-- A dispatcher that takes a step has not returned. It returns only by testing `quit`, and
otherwise takes or processes one request or none. -/
theorem dispatcherStep_cases (h : dispatcherStep s a = some t) : s.dispatcher ≠ .returned ∧
    ((a = .testQuit ∧ s.quit = true ∧ s.dispatcher.inHand = [] ∧
        t = { s with dispatcher := .returned }) ∨
      (∃ d m, t = { s with dispatcher := d, mutex := m } ∧
        d.inHand = s.dispatcher.inHand ∧ d ≠ .returned) ∨
      (∃ r q, s.dispatcher.inHand = [] ∧ s.queue = r :: q ∧
        t = { s with dispatcher := .taken r, queue := q }) ∨
      ∃ r, s.dispatcher.inHand = [r] ∧
        t = { s with dispatcher := .testing, processed := s.processed ++ [r] }) := by
  cases a with
  | testQuit =>
      simp only [dispatcherStep] at h
      split at h
      · rename_i hd
        obtain rfl := Option.some.inj h
        refine ⟨by rw [hd]; nofun, ?_⟩
        cases hq : s.quit with
        | true => exact .inl ⟨rfl, rfl, by rw [hd]; rfl, rfl⟩
        | false => exact .inr (.inl ⟨.entering, s.mutex, rfl, by rw [hd]; rfl, nofun⟩)
      · cases h
  | enterTake =>
      simp only [dispatcherStep] at h
      split at h
      · rename_i hd hm
        obtain rfl := Option.some.inj h
        exact ⟨by rw [hd]; nofun, .inr (.inl ⟨_, _, rfl, by rw [hd]; rfl, nofun⟩)⟩
      · cases h
  | wake =>
      simp only [dispatcherStep] at h
      split at h
      · rename_i hd
        obtain rfl := Option.some.inj h
        exact ⟨by rw [hd]; nofun, .inr (.inl ⟨_, _, rfl, by rw [hd]; rfl, nofun⟩)⟩
      · cases h
  | leaveTake =>
      simp only [dispatcherStep] at h
      split at h
      · rename_i r hd
        obtain rfl := Option.some.inj h
        exact ⟨by rw [hd]; nofun, .inr (.inl ⟨_, _, rfl, by rw [hd]; rfl, nofun⟩)⟩
      · cases h
  | check =>
      simp only [dispatcherStep] at h
      split at h
      · rename_i hd hq
        obtain rfl := Option.some.inj h
        exact ⟨by rw [hd]; nofun, .inr (.inl ⟨_, _, rfl, by rw [hd]; rfl, nofun⟩)⟩
      · rename_i r q hd hq
        exact ⟨by rw [hd]; nofun,
          .inr (.inr (.inl ⟨r, q, by rw [hd]; rfl, hq, (Option.some.inj h).symm⟩))⟩
      · cases h
  | process =>
      simp only [dispatcherStep] at h
      split at h
      · rename_i r hd
        exact ⟨by rw [hd]; nofun,
          .inr (.inr (.inr ⟨r, by rw [hd]; rfl, (Option.some.inj h).symm⟩))⟩
      · cases h
  | testServerQuit | pollError | poll | receive | enterPut | push | leavePut | notify | served
  | stopServer | joinServer | setQuit | join => cases h

/-- `shutdown` gets past the join of the server only if the server has exited, and sets
`quit` after that. -/
theorem shutdownStep_cases (h : shutdownStep s a = some t) : ∃ v b q,
    t = { s with shutdown := v, serverQuit := b, quit := q } ∧
      (v.pastServer = true → s.shutdown.pastServer = true ∨ s.server = .exited) ∧
      (q = true → s.quit = true ∨ s.shutdown.pastServer = true) ∧
      (s.shutdown.pastServer = true → v.pastServer = true) ∧
      (s.quit = true → q = true) := by
  cases a with
  | stopServer =>
      simp only [shutdownStep] at h
      split at h
      · rename_i hv
        exact ⟨_, _, _, (Option.some.inj h).symm, nofun, .inl, by rw [hv]; nofun, id⟩
      · cases h
  | joinServer =>
      simp only [shutdownStep] at h
      split at h
      · rename_i hv hs
        exact ⟨_, _, _, (Option.some.inj h).symm, fun _ => .inr hs, .inl, fun _ => rfl, id⟩
      · cases h
  | setQuit =>
      simp only [shutdownStep] at h
      split at h
      · rename_i hv
        have hp : s.shutdown.pastServer = true := by rw [hv]; rfl
        exact ⟨_, _, _, (Option.some.inj h).symm, fun _ => .inl hp, fun _ => .inr hp, fun _ => rfl,
          fun _ => rfl⟩
      · cases h
  | join =>
      simp only [shutdownStep] at h
      split at h
      · rename_i hv hd
        have hp : s.shutdown.pastServer = true := by rw [hv]; rfl
        exact ⟨_, _, _, (Option.some.inj h).symm, fun _ => .inl hp, .inl, fun _ => rfl, id⟩
      · cases h
  | testServerQuit | pollError | poll | receive | enterPut | push | leavePut | notify | served
  | testQuit | enterTake | check | wake | leaveTake | process => cases h

theorem step_cases (h : step s a = some t) :
    serverStep s a = some t ∨ dispatcherStep s a = some t ∨ shutdownStep s a = some t := by
  rcases Option.or_eq_some_iff.mp h with h | ⟨-, h⟩
  · exact .inl h
  · rcases Option.or_eq_some_iff.mp h with h | ⟨-, h⟩
    · exact .inr (.inl h)
    · exact .inr (.inr h)

/-- Every request put is processed, in the hand of the dispatcher or queued, in the order of
the puts; and the server has exited before `quit` is set. -/
structure Inv (s : State R) : Prop where
  conserved : s.puts = s.processed ++ s.dispatcher.inHand ++ s.queue
  exited : s.shutdown.pastServer = true → s.server = .exited
  pastServer : s.quit = true → s.shutdown.pastServer = true
  quit : s.dispatcher = .returned → s.quit = true

theorem Inv.server_running (h : Inv s) (hs : s.server ≠ .exited) (hr : s.dispatcher = .returned) :
    False :=
  hs (h.exited (h.pastServer (h.quit hr)))

theorem Inv.step (h : Inv s) (he : Dir.step s a = some t) : Inv t := by
  rcases step_cases he with he | he | he
  · obtain ⟨hs, ⟨v, m, d, rfl, hd, hr⟩ | ⟨r, v, rfl⟩⟩ := serverStep_cases he
    · exact ⟨by simp only [hd]; exact h.conserved, fun hp => absurd (h.exited hp) hs, h.pastServer,
        fun hd => h.quit (hr hd)⟩
    · refine ⟨?_, fun hp => absurd (h.exited hp) hs, h.pastServer, h.quit⟩
      simp only [h.conserved, List.append_assoc]
  · obtain ⟨-, ⟨-, hq, hn, rfl⟩ | ⟨d, m, rfl, hd, hr⟩ | ⟨r, q, hn, hq, rfl⟩ | ⟨r, hn, rfl⟩⟩ :=
      dispatcherStep_cases he
    · refine ⟨?_, h.exited, h.pastServer, fun _ => hq⟩
      rw [h.conserved, hn]
      rfl
    · exact ⟨by simp only [hd]; exact h.conserved, h.exited, h.pastServer, fun hd => absurd hd hr⟩
    · refine ⟨?_, h.exited, h.pastServer, nofun⟩
      rw [h.conserved, hn, hq, List.append_assoc, List.append_assoc]
      rfl
    · refine ⟨?_, h.exited, h.pastServer, nofun⟩
      rw [h.conserved, hn]
      simp only [DispatcherStage.inHand, List.append_nil]
  · obtain ⟨v, b, q, rfl, hv, hq, hp, hk⟩ := shutdownStep_cases he
    exact ⟨h.conserved, fun hp => (hv hp).elim h.exited id,
      fun hq' => hp ((hq hq').elim h.pastServer id), fun hd => hk (h.quit hd)⟩

theorem Inv.of_reaches {G : State R → Action R → Prop} (h : Reaches machine G s) : Inv s := by
  refine h.invariant ?_ ?_
  · rintro _ rfl
    exact ⟨rfl, nofun, nofun, nofun⟩
  · intro s a t hs _ he
    exact hs.step he

/-- Once `quit` is set, `run` tests it only when the queue is empty. -/
def TestsDrained (s : State R) : Action R → Prop
  | .testQuit => s.quit = true → s.queue = []
  | _ => True

/-- After `run` has returned the queue stays as it is, since the server has exited. -/
theorem Inv.queue_step (h : Inv s) (hg : TestsDrained s a)
    (hd : s.dispatcher = .returned → s.queue = []) (he : Dir.step s a = some t)
    (hr : t.dispatcher = .returned) : t.queue = [] := by
  rcases step_cases he with he | he | he
  · obtain ⟨hs, ⟨v, m, d, rfl, -, hd'⟩ | ⟨r, v, rfl⟩⟩ := serverStep_cases he
    · exact hd (hd' hr)
    · exact absurd hr fun hr => h.server_running hs hr
  · obtain ⟨-, ⟨rfl, hq, -, rfl⟩ | ⟨d, m, rfl, -, hd'⟩ | ⟨r, q, -, -, rfl⟩ | ⟨r, -, rfl⟩⟩ :=
      dispatcherStep_cases he
    · exact hg hq
    · exact absurd hr hd'
    · cases hr
    · cases hr
  · obtain ⟨v, b, q, rfl, -⟩ := shutdownStep_cases he
    exact hd hr

/-- In every run in which `run` tests a set `quit` only when the queue is empty, `run`
returns with every request that was put processed exactly once, in the order of the puts. -/
theorem processed_eq_puts {R : Type} {s : State R} (h : Reaches machine TestsDrained s)
    (hr : s.dispatcher = .returned) : s.processed = s.puts := by
  have hdrained : s.dispatcher = .returned → s.queue = [] := by
    refine (Reaches.invariant (I := fun s : State R => Inv s ∧
      (s.dispatcher = .returned → s.queue = [])) ?_ ?_ h).2
    · rintro _ rfl
      exact ⟨.of_reaches (.init (G := fun _ _ => True) rfl), nofun⟩
    · rintro s a t ⟨hi, hd⟩ hg he
      exact ⟨hi.step he, hi.queue_step hg hd he⟩
  have hc := (Inv.of_reaches h).conserved
  rw [hr, hdrained hr] at hc
  simpa [DispatcherStage.inHand] using hc.symm

instance [DecidableEq R] (s : State R) (a : Action R) : Decidable (TestsDrained s a) :=
  match a with
  | .testQuit => inferInstanceAs (Decidable (s.quit = true → s.queue = []))
  | .testServerQuit | .pollError | .poll | .receive _ | .enterPut | .push | .leavePut | .notify
  | .served | .enterTake | .check | .wake | .leaveTake | .process | .stopServer | .joinServer
  | .setQuit | .join => .isTrue trivial

/-- `quit` is set while the dispatcher processes the only request. -/
theorem processed_eq_puts_one : ∃ s : State ℕ, Reaches machine TestsDrained s ∧
    s.dispatcher = .returned ∧ s.puts = [7] ∧ s.processed = s.puts := by
  have hr : ∃ s : State ℕ, Reaches machine TestsDrained s ∧
      s.dispatcher = .returned ∧ s.puts = [7] :=
    Reaches.exists_of_run (.init rfl)
      [.testServerQuit, .poll, .receive 7, .enterPut, .push, .leavePut, .notify, .served,
        .testQuit, .enterTake, .check, .leaveTake, .stopServer, .testServerQuit, .joinServer,
        .setQuit, .process, .testQuit] (by decide)
  obtain ⟨s, hs, hd, hp⟩ := hr
  exact ⟨s, hs, hd, hp, processed_eq_puts hs hd⟩

/-- The server puts a request and exits, `quit` is set, and the dispatcher, which has not
taken the request, tests `quit` and returns. -/
theorem request_dropped : ∃ s : State ℕ, Reachable machine s ∧
    (s.dispatcher, s.puts, s.queue, s.processed) = (.returned, [7], [7], []) :=
  Reachable.exists_run (.init rfl)
    [.testServerQuit, .poll, .receive 7, .enterPut, .push, .leavePut, .notify, .served,
      .stopServer, .testServerQuit, .joinServer, .setQuit, .testQuit] _ (by decide)

end Hatch.Dir
