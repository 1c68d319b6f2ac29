import Hatch.TransitionSystem
import Mathlib.Data.Nat.Notation
import Mathlib.Logic.Function.Basic

/-!
# The handlers of the calculator server

Every connection gets a `SocketHandle` and a thread of its own, but the socket is kept in a
static field that all of them share. The accept loop and the handlers take atomic steps. A
handler has the number of the socket it was constructed with, and every read, write and close
is kept with the socket it was made on.
-/

namespace Hatch.SocketHandle

open TransitionSystem

/-- The loop of `Server.start`: in `accept`, with a socket, with a `SocketHandle` for it. -/
inductive AcceptStage where
  | waiting
  | accepted (k : ℕ)
  | constructed (k : ℕ)
  deriving DecidableEq

/-- `SocketHandle.run`, with the sockets that the two streams belong to. -/
inductive Stage where
  | started
  | serving (input output : ℕ)
  | closing (input output : Option ℕ)
  | done
  deriving DecidableEq

inductive Operation where
  | read
  | write
  | close
  deriving DecidableEq

structure Use where
  handler : ℕ
  operation : Operation
  socket : ℕ
  deriving DecidableEq

structure State where
  /-- The static field. -/
  sock : Option ℕ
  loop : AcceptStage
  /-- How many sockets `accept` has returned. -/
  count : ℕ
  stage : ℕ → Option Stage
  uses : List Use

/-- What the two calls for the streams of a socket do: the second or the first may throw. -/
inductive Fetch where
  | both
  | inputOnly
  | neither
  deriving DecidableEq

inductive Action where
  | accept
  | construct
  | start
  | fetch (h : ℕ) (result : Fetch)
  | answer (h : ℕ)
  | leave (h : ℕ)
  | close (h : ℕ)

/-- The handler after it has asked the field for its streams; a null field throws. -/
def fetched : Option ℕ → Fetch → Stage
  | none, _ => .closing none none
  | some k, .both => .serving k k
  | some k, .inputOnly => .closing (some k) none
  | some _, .neither => .closing none none

def closed (h : ℕ) (input output sock : Option ℕ) : List Use :=
  (input.toList ++ output.toList ++ sock.toList).map fun k => ⟨h, .close, k⟩

def State.setStage (s : State) (h : ℕ) (stage : Stage) : State :=
  { s with stage := Function.update s.stage h (some stage) }

def State.use (s : State) (uses : List Use) : State := { s with uses := s.uses ++ uses }

def loopStep (s : State) : Action → Option State
  | .accept => match s.loop with
      | .waiting => some { s with loop := .accepted s.count, count := s.count + 1 }
      | _ => none
  | .construct => match s.loop with
      | .accepted k => some { s with loop := .constructed k, sock := some k }
      | _ => none
  | .start => match s.loop with
      | .constructed k => some ({ s with loop := .waiting }.setStage k .started)
      | _ => none
  | _ => none

/-- The steps of a handler. The loop is left by the end of the input and by an exception, of
`readLine` or of the calculation. -/
def handlerStep (s : State) : Action → Option State
  | .fetch h result => match s.stage h with
      | some .started => some (s.setStage h (fetched s.sock result))
      | _ => none
  | .answer h => match s.stage h with
      | some (.serving i o) => some (s.use [⟨h, .read, i⟩, ⟨h, .write, o⟩])
      | _ => none
  | .leave h => match s.stage h with
      | some (.serving i o) =>
          some ((s.use [⟨h, .read, i⟩]).setStage h (.closing (some i) (some o)))
      | _ => none
  | .close h => match s.stage h with
      | some (.closing i o) =>
          some (({ s with sock := none }.use (closed h i o s.sock)).setStage h .done)
      | _ => none
  | _ => none

def step (s : State) (a : Action) : Option State := (loopStep s a).or (handlerStep s a)

def start : State where
  sock := none
  loop := .waiting
  count := 0
  stage := fun _ => none
  uses := []

def machine : Machine State Action where
  init s := s = start
  step := step

/-- No handler has used a socket other than its own. -/
def OwnOnly (s : State) : Prop := ∀ u ∈ s.uses, u.socket = u.handler

/-- A handler that reads the field finds its own socket there, or null. -/
def FieldOwn (s : State) : Action → Prop
  | .fetch h _ | .close h => s.sock = none ∨ s.sock = some h
  | _ => True

instance (s : State) (a : Action) : Decidable (FieldOwn s a) :=
  match a with
  | .fetch _ _ | .close _ => inferInstanceAs (Decidable (_ ∨ _))
  | .accept | .construct | .start | .answer _ | .leave _ => inferInstanceAs (Decidable True)

/-- The streams of a handler are those of its own socket. -/
def Stage.Own (h : ℕ) : Stage → Prop
  | .serving i o => i = h ∧ o = h
  | .closing i o => (∀ k ∈ i, k = h) ∧ ∀ k ∈ o, k = h
  | .started | .done => True

structure Inv (s : State) : Prop where
  uses : OwnOnly s
  stage : ∀ h stage, s.stage h = some stage → stage.Own h

section Steps

variable {s t : State}

theorem Inv.setStage (hi : Inv s) {h : ℕ} {stage : Stage} (hs : stage.Own h) :
    Inv (s.setStage h stage) := by
  refine ⟨hi.uses, fun h' stage' he => ?_⟩
  change Function.update s.stage h (some stage) h' = some stage' at he
  by_cases hh : h' = h
  · subst hh
    rw [Function.update_self] at he
    cases he
    exact hs
  · rw [Function.update_of_ne hh] at he
    exact hi.stage h' stage' he

theorem Inv.use (hi : Inv s) {uses : List Use} (hu : ∀ u ∈ uses, u.socket = u.handler) :
    Inv (s.use uses) := by
  refine ⟨fun u hm => ?_, hi.stage⟩
  rcases List.mem_append.mp hm with hm | hm
  · exact hi.uses u hm
  · exact hu u hm

theorem own_fetched {h : ℕ} {sock : Option ℕ} (hsock : sock = none ∨ sock = some h)
    (result : Fetch) : (fetched sock result).Own h := by
  rcases hsock with rfl | rfl
  · exact ⟨nofun, nofun⟩
  · cases result with
    | both => exact ⟨rfl, rfl⟩
    | inputOnly => exact ⟨fun k hk => (Option.some.inj hk).symm, nofun⟩
    | neither => exact ⟨nofun, nofun⟩

theorem own_closed {h : ℕ} {i o sock : Option ℕ} (hio : (Stage.closing i o).Own h)
    (hsock : sock = none ∨ sock = some h) : ∀ u ∈ closed h i o sock, u.socket = u.handler := by
  intro u hu
  obtain ⟨k, hk, rfl⟩ := List.mem_map.mp hu
  have hfield : ∀ k ∈ sock, k = h := by
    rcases hsock with rfl | rfl
    · exact nofun
    · exact fun k hk => (Option.some.inj hk).symm
  rcases List.mem_append.mp hk with hk | hk
  · rcases List.mem_append.mp hk with hk | hk
    · exact hio.1 k (Option.mem_toList.mp hk)
    · exact hio.2 k (Option.mem_toList.mp hk)
  · exact hfield k (Option.mem_toList.mp hk)

theorem Inv.loopStep (hi : Inv s) {a : Action} (he : loopStep s a = some t) : Inv t := by
  unfold SocketHandle.loopStep at he
  split at he
  · split at he
    · cases he
      exact ⟨hi.uses, hi.stage⟩
    · cases he
  · split at he
    · cases he
      exact ⟨hi.uses, hi.stage⟩
    · cases he
  · split at he
    · cases he
      exact Inv.setStage (s := { s with loop := .waiting }) ⟨hi.uses, hi.stage⟩ trivial
    · cases he
  · cases he

theorem Inv.handlerStep (hi : Inv s) {a : Action} (hg : FieldOwn s a)
    (he : handlerStep s a = some t) : Inv t := by
  unfold SocketHandle.handlerStep at he
  split at he
  · split at he
    · cases he
      exact hi.setStage (own_fetched hg _)
    · cases he
  · next h =>
    split at he
    · next i o hstage =>
      cases he
      obtain ⟨rfl, rfl⟩ := hi.stage h _ hstage
      exact hi.use (List.forall_mem_cons.mpr ⟨rfl, List.forall_mem_singleton.mpr rfl⟩)
    · cases he
  · next h =>
    split at he
    · next i o hstage =>
      cases he
      obtain ⟨rfl, rfl⟩ := hi.stage h _ hstage
      refine (hi.use (List.forall_mem_singleton.mpr rfl)).setStage ⟨?_, ?_⟩
      · exact fun k hk => (Option.some.inj hk).symm
      · exact fun k hk => (Option.some.inj hk).symm
    · cases he
  · next h =>
    split at he
    · next i o hstage =>
      cases he
      have hs : Inv { s with sock := none } := ⟨hi.uses, hi.stage⟩
      exact (hs.use (own_closed (hi.stage h _ hstage) hg)).setStage trivial
    · cases he
  · cases he

theorem Inv.step (hi : Inv s) {a : Action} (hg : FieldOwn s a) (he : step s a = some t) :
    Inv t := by
  rcases Option.or_eq_some_iff.mp he with he | ⟨-, he⟩
  · exact hi.loopStep he
  · exact hi.handlerStep hg he

end Steps

/-- Where the field holds its own socket or null whenever a handler reads it, no handler reads
from, writes to or closes the socket of another. -/
theorem connections_apart {s : State} (h : Reaches machine FieldOwn s) : OwnOnly s := by
  have hi : Inv s := by
    refine Reaches.invariant ?_ ?_ h
    · rintro s rfl
      exact ⟨nofun, nofun⟩
    · intro s a t hi hg he
      exact hi.step hg he
  exact hi.uses

/-- Two connections, one after the other. -/
theorem connections_apart_sequence : ∃ s, Reaches machine FieldOwn s ∧
    s.uses = [⟨0, .read, 0⟩, ⟨0, .write, 0⟩, ⟨0, .read, 0⟩, ⟨0, .close, 0⟩, ⟨0, .close, 0⟩,
      ⟨0, .close, 0⟩, ⟨1, .read, 1⟩, ⟨1, .write, 1⟩] ∧ OwnOnly s := by
  have hr : ∃ s, Reaches machine FieldOwn s ∧
      s.uses = [⟨0, .read, 0⟩, ⟨0, .write, 0⟩, ⟨0, .read, 0⟩, ⟨0, .close, 0⟩, ⟨0, .close, 0⟩,
        ⟨0, .close, 0⟩, ⟨1, .read, 1⟩, ⟨1, .write, 1⟩] :=
    Reaches.exists_of_run (.init rfl) [.accept, .construct, .start, .fetch 0 .both, .answer 0,
      .leave 0, .close 0, .accept, .construct, .start, .fetch 1 .both, .answer 1] (by decide)
  obtain ⟨s, hs, huses⟩ := hr
  exact ⟨s, hs, huses, connections_apart hs⟩

/-- The second connection is accepted before the first handler has asked for its streams: it
reads from the second and writes to it. -/
theorem connections_mixed : ∃ s, Reachable machine s ∧ ¬ OwnOnly s := by
  obtain ⟨s, hs, huses⟩ := Reachable.exists_run (M := machine) (.init rfl)
    [.accept, .construct, .start, .accept, .construct, .start, .fetch 0 .both, .answer 0]
    State.uses (v := [⟨0, .read, 1⟩, ⟨0, .write, 1⟩]) (by decide)
  refine ⟨s, hs, fun h => ?_⟩
  rw [OwnOnly, huses] at h
  exact absurd (h ⟨0, .read, 1⟩ (by decide)) (by decide)

end Hatch.SocketHandle
