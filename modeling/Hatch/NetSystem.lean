import Mathlib.Data.Fintype.Option
import Hatch.NetRoster

/-!
# One server and any number of clients

Every party is a process with its own globals; `none` is the server. A run
interleaves the calls of the users, the sender, receiver and handler threads of
the parties, and the network, which holds the datagrams in flight in the order in
which they were sent. A client that has ended may still work off its queues or
leave them as they are. The network may deliver in any order and lose datagrams;
`Reliable` confines it to delivery in order per sender and receiver, and the
message queues to never being full.
-/

namespace Hatch.Net

open ByteLayout FaultProgram Prog TransitionSystem

/-- Distinct ordinary user names and distinct sockets. `ownerAddr` is the address a client
is told to be its own. -/
structure Config (ι : Type) where
  name : ι → UserName
  endpoint : ι → Endpoint
  ownerAddr : ι → SockAddrIn
  name_injective : Function.Injective name
  name_ordinary : ∀ c, (name c).bytes ≠ serverName ∧ (name c).bytes ≠ errorName ∧
    (name c).bytes ≠ clientInitName
  endpoint_injective : Function.Injective endpoint
  endpoint_ne_server : ∀ c, endpoint c ≠ serverEndpoint

variable {ι : Type}

def Config.socket (cfg : Config ι) : Option ι → Endpoint
  | none => serverEndpoint
  | some c => cfg.endpoint c

def protocolOf : Option ι → Protocol
  | none => serverProtocol
  | some _ => clientProtocol

structure Datagram where
  src : Endpoint
  dst : Endpoint
  payload : Bytes

structure System (ι : Type) where
  proc : Option ι → Process
  net : List Datagram
  loginCalled : ι → Bool
  logoutCalled : ι → Bool

inductive SystemAction (ι : Type)
  | memory (p : Option ι) (junk : ℕ → UInt8)
  | login (c : ι)
  | logout (c : ι)
  | servicesEnd (c : ι)
  | transmit (p : Option ι)
  | deliver (q : Option ι) (i : ℕ)
  | handle (p : Option ι)
  | discard (q : Option ι) (i : ℕ)
  | abandon (q : Option ι)
  | lose (i : ℕ)

def clientInit (junk : ℕ → UInt8) (a : SockAddrIn) : Process :=
  { Process.fresh junk with userList := [serverUser, ownUser a clientInitName] }

theorem initClient_run (junk : ℕ → UInt8) (a : SockAddrIn) :
    (do
      let _ ← hatchInitialize 1
      hatchSetOwnerAddr a : Handler Unit) (Process.fresh junk) = .ok ((), clientInit junk a) := rfl

def System.start (cfg : Config ι) : System ι where
  proc
    | none => serverStart (fun _ => 0)
    | some c => clientInit (fun _ => 0) (cfg.ownerAddr c)
  net := []
  loginCalled _ := false
  logoutCalled _ := false

def sockAddr (e : Endpoint) : SockAddrIn := ⟨afInet, e.2, e.1, 0⟩

variable [DecidableEq ι]

def System.setProc (s : System ι) (p : Option ι) (t : Process) : System ι :=
  { s with proc := Function.update s.proc p t }

/-- Run `h` in party `p`; a fault ends the run. -/
def System.runOn {α : Type} (s : System ι) (p : Option ι) (h : Handler α) : Option (System ι) :=
  match h (s.proc p) with
  | .ok (_, t) => some (s.setProc p t)
  | .error _ => none

def System.execute (cfg : Config ι) (s : System ι) : SystemAction ι → Option (System ι)
  | .memory p junk => some (s.setProc p { s.proc p with junk := junk })
  | .login c =>
      if s.loginCalled c then none
      else (s.runOn (some c) (hatchClientLogin (some (cfg.name c).bytes))).map
        (fun t => { t with loginCalled := Function.update t.loginCalled c true })
  | .logout c =>
      if s.loginCalled c then (s.runOn (some c) (hatchClientLogout none)).map
        (fun t => { t with logoutCalled := Function.update t.logoutCalled c true })
      else none
  | .servicesEnd c =>
      if s.logoutCalled c then s.runOn (some c) hatchServicesEnd else none
  | .transmit p =>
      match (s.proc p).sendList.pop with
      | some (b, q) => some { s.setProc p { s.proc p with sendList := q } with
          net := s.net ++ [⟨cfg.socket p, (msgFromAddr b).endpoint, wireOf b⟩] }
      | none => none
  | .deliver q i =>
      match s.net[i]? with
      | some d =>
          if d.dst = cfg.socket q then
            ({ s with net := s.net.eraseIdx i }).runOn q
              (hatchPacketRecvProc (sockAddr d.src) d.payload)
          else none
      | none => none
  | .handle p =>
      match (s.proc p).recvList.pop with
      | some (b, q) =>
          (s.setProc p { s.proc p with recvList := q }).runOn p (hatchMsgProc (protocolOf p) b)
      | none => none
  | .discard q i =>
      match s.net[i]? with
      | some d =>
          if d.dst = cfg.socket q ∧ (s.proc q).runnerEnd then
            some { s with net := s.net.eraseIdx i }
          else none
      | none => none
  | .abandon q =>
      match (s.proc q).recvList.pop with
      | some (_, r) =>
          if (s.proc q).runnerEnd then some (s.setProc q { s.proc q with recvList := r }) else none
      | none => none
  | .lose i => if i < s.net.length then some { s with net := s.net.eraseIdx i } else none

def chat (cfg : Config ι) : Machine (System ι) (SystemAction ι) where
  init s := s = .start cfg
  step := System.execute cfg

/-- Delivery exactly once and in order per sender and receiver. -/
def InOrder (s : System ι) : SystemAction ι → Prop
  | .deliver _ i =>
      ∀ d ∈ s.net[i]?, ∀ e ∈ s.net.take i, ¬ (e.src = d.src ∧ e.dst = d.dst)
  | .lose _ => False
  | _ => True

def Process.NoOverflow (t : Process) : Prop :=
  t.recvList.refused = 0 ∧ t.sendList.refused = 0 ∧ t.tempList.refused = 0

def System.NoOverflow (s : System ι) : Prop := ∀ p, (s.proc p).NoOverflow

/-- In order, and no list refuses a message. A Login queues its reply and an Update for every listed
client in one step, so that no more than 255 clients are ever listed in such a run. -/
def Reliable (cfg : Config ι) (s : System ι) (a : SystemAction ι) : Prop :=
  InOrder s a ∧ ∀ t ∈ s.execute cfg a, t.NoOverflow

def System.Quiescent (s : System ι) : Prop :=
  (∀ p, (s.proc p).recvList.list = [] ∧ (s.proc p).sendList.list = [] ∧
    (s.proc p).tempList.list = []) ∧ s.net = []

section Decidable

instance (s : System ι) (a : SystemAction ι) : Decidable (InOrder s a) :=
  match a with
  | .deliver _ i => inferInstanceAs (Decidable
      (∀ d ∈ s.net[i]?, ∀ e ∈ s.net.take i, ¬ (e.src = d.src ∧ e.dst = d.dst)))
  | .lose _ => .isFalse id
  | .memory .. | .login _ | .logout _ | .servicesEnd _ | .transmit _ | .handle _ | .discard ..
  | .abandon _ => .isTrue trivial

instance : DecidablePred Process.NoOverflow := fun _ => inferInstanceAs (Decidable (_ ∧ _ ∧ _))

variable [Fintype ι]

instance (s : System ι) : Decidable s.NoOverflow := inferInstanceAs (Decidable (∀ _, _))

instance (cfg : Config ι) (s : System ι) (a : SystemAction ι) : Decidable (Reliable cfg s a) :=
  inferInstanceAs (Decidable (_ ∧ ∀ t ∈ s.execute cfg a, t.NoOverflow))

instance (s : System ι) : Decidable s.Quiescent := inferInstanceAs (Decidable ((∀ _, _) ∧ _))

end Decidable

end Hatch.Net
