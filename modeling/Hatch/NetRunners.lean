import Hatch.NetEffect
import Hatch.ThreadPool

/-!
# The threads of one application

`hatchMain` pushes the runners to the thread pool, logs a client in, waits for the end event
or for a key, and ends the pool. A worker takes the runners in the order of the pushes and runs
each to its return. The four runners are the loops of the network layer and of the services:
each waits on its handles, of which the lowest that is signalled wins, and a wait on a semaphore
and the pop that follows it are two steps. The critical sections are single steps, but that of the
user list is left once too often where `hatchIsUserInList` finds a user, and from then on a handler
that enters it may wait there for ever.

What `hatchMsgProc` does to the rest of the application is a list of effects that the message
may choose; `hatchMsgProc_effects` says that the handlers have no others. The histories `queued`
and `sent` record what the send list has accepted and what has been handed to `sendto`, and the
histories of the other two lists what `hatchMsgProc` has been called with.
-/

namespace Hatch.Net

open ByteLayout FaultProgram Prog TransitionSystem ThreadCount

inductive Runner
  | recv | send | packet | text
  deriving DecidableEq, Repr

def runners (servicesType : ℕ) : List Runner :=
  if servicesType = 0 then [.recv, .send, .packet] else [.recv, .send, .packet, .text]

inductive RecvStage
  | testing
  | selecting
  | receiving
  | pushing (m : Bytes)
  deriving DecidableEq

inductive SendStage
  | waiting
  | woken
  | sending (m : Bytes)
  deriving DecidableEq

/-- What a handler does outside the user list; `overLeave` leaves its critical section without
having entered it. -/
inductive Effect
  | send (m : Bytes)
  | startText
  | servicesEnd
  | overLeave
  deriving DecidableEq

/-- `hatchPacketProc`; `working` holds the effects of the handler that are still to come, and in
`blocked` the handler waits for the critical section of the user list. -/
inductive PacketStage
  | waiting
  | wokenRecv
  | wokenTemp
  | handlingRecv (m : Bytes)
  | handlingTemp (m : Bytes)
  | working (es : List Effect)
  | blocked
  deriving DecidableEq

inductive TextStage
  | waiting
  | reading
  | pushing (m : Bytes)
  | loggingOut
  | ending
  deriving DecidableEq

/-- A runner before a worker takes it, in the hands of a worker, and after `Run` has returned. -/
inductive Status (T P : Type)
  | created
  | running (t : T) (p : P)
  | returned
  deriving DecidableEq

inductive WorkerStage
  | waiting
  | woken
  | running (r : Runner)
  | ended
  deriving DecidableEq

/-- `hatchMain`, from the pushes on; `naming` and `prompting` wait for the user. -/
inductive MainStage
  | pushing (rs : List Runner)
  | releasing (rs : List Runner)
  | naming
  | waiting
  | prompting
  | aborting
  | ending
  | joining
  | returned
  deriving DecidableEq

/-- `textAlive` says that `Textrun` is in scope, `dangling` that a worker has taken it after
that, and `handlerEnd` that a handler has set the end event. `userDepth` is the recursion depth of
the user list's critical section between two calls. -/
structure App (T : Type) where
  listRunner : List Runner
  poolSem : ℕ
  poolEnd : Bool
  worker : T → WorkerStage
  main : MainStage
  recvList : MsgQueue
  sendList : MsgQueue
  tempList : MsgQueue
  startText : Bool
  runnerEnd : Bool
  recv : Status T RecvStage
  send : Status T SendStage
  packet : Status T PacketStage
  text : Status T TextStage
  queued : List Bytes
  sent : List Bytes
  recvQueued : List Bytes
  recvHandled : List Bytes
  tempQueued : List Bytes
  tempHandled : List Bytes
  textAlive : Bool
  dangling : Bool
  handlerEnd : Bool
  userDepth : ℤ

/-- What `select` and `recvfrom` return to the receiving runner. -/
inductive RecvEvent
  | test
  | selectError
  | timeout
  | ready
  | nothing
  | datagram (sender : SockAddrIn) (d : Bytes)
  | push
  deriving DecidableEq

inductive PacketEvent
  | go
  | handle (es : List Effect)
  | block
  deriving DecidableEq

/-- The word that is typed, as the message it is sent in, or `close`. -/
inductive TextEvent
  | go
  | typed (m : Bytes)
  | close
  | logout (m : Bytes)
  deriving DecidableEq

inductive MainEvent
  | go
  | login (m : Bytes)
  | key
  deriving DecidableEq

inductive AppAction (T : Type)
  | recv (e : RecvEvent)
  | send
  | packet (e : PacketEvent)
  | text (e : TextEvent)
  | worker (t : T)
  | main (e : MainEvent)
  deriving DecidableEq

def MsgQueue.accepted (q : MsgQueue) (m : Bytes) : List Bytes :=
  if q.sem < netMessageListMaxLength then [m] else []

def MsgQueue.wait (q : MsgQueue) : MsgQueue := { q with sem := q.sem - 1 }

variable {T : Type} [DecidableEq T]

def App.setWorker (s : App T) (t : T) (p : WorkerStage) : App T :=
  { s with worker := Function.update s.worker t p }

def App.pushRecv (s : App T) (m : Bytes) : App T :=
  { s with
    recvList := (s.recvList.push m).2
    recvQueued := s.recvQueued ++ s.recvList.accepted m }

def App.pushSend (s : App T) (m : Bytes) : App T :=
  { s with
    sendList := (s.sendList.push m).2
    queued := s.queued ++ s.sendList.accepted m }

def App.pushTemp (s : App T) (m : Bytes) : App T :=
  { s with
    tempList := (s.tempList.push m).2
    tempQueued := s.tempQueued ++ s.tempList.accepted m }

def App.effect (s : App T) : Effect → App T
  | .send m => s.pushSend m
  | .startText => { s with startText := true }
  | .servicesEnd => { s with runnerEnd := true, handlerEnd := true }
  | .overLeave => { s with userDepth := s.userDepth - 1 }

def recvStep (s : App T) : RecvEvent → Option (App T)
  | .test => match s.recv with
      | .running t .testing =>
          if s.runnerEnd then some ({ s with recv := .returned }.setWorker t .waiting)
          else some { s with recv := .running t .selecting }
      | _ => none
  | .selectError => match s.recv with
      | .running t .selecting => some ({ s with recv := .returned }.setWorker t .waiting)
      | _ => none
  | .timeout => match s.recv with
      | .running t .selecting => some { s with recv := .running t .testing }
      | _ => none
  | .ready => match s.recv with
      | .running t .selecting => some { s with recv := .running t .receiving }
      | _ => none
  | .nothing => match s.recv with
      | .running t .receiving => some { s with recv := .running t .testing }
      | _ => none
  | .datagram a d => match s.recv with
      | .running t .receiving =>
          if d ≠ [] ∧ d.length ≤ msgPacketMaxLength
            then some { s with recv := .running t (.pushing (recvMsg a d)) } else none
      | _ => none
  | .push => match s.recv with
      | .running t (.pushing m) => some { s.pushRecv m with recv := .running t .testing }
      | _ => none

def sendStep (s : App T) : Option (App T) :=
  match s.send with
  | .running t .waiting =>
      if 0 < s.sendList.sem
        then some { s with sendList := s.sendList.wait, send := .running t .woken }
      else if s.runnerEnd then some ({ s with send := .returned }.setWorker t .waiting)
      else none
  | .running t .woken => match s.sendList.list with
      | m :: l => some { s with
          sendList := { s.sendList with list := l }
          send := .running t (.sending m) }
      | [] => none
  | .running t (.sending m) => some { s with sent := s.sent ++ [m], send := .running t .waiting }
  | _ => none

def packetStep (s : App T) : PacketEvent → Option (App T)
  | .go => match s.packet with
      | .running t .waiting =>
          if 0 < s.recvList.sem
            then some { s with recvList := s.recvList.wait, packet := .running t .wokenRecv }
          else if 0 < s.tempList.sem
            then some { s with tempList := s.tempList.wait, packet := .running t .wokenTemp }
          else if s.runnerEnd then some ({ s with packet := .returned }.setWorker t .waiting)
          else none
      | .running t .wokenRecv => match s.recvList.list with
          | m :: l => some { s with
              recvList := { s.recvList with list := l }
              packet := .running t (.handlingRecv m) }
          | [] => none
      | .running t .wokenTemp => match s.tempList.list with
          | m :: l => some { s with
              tempList := { s.tempList with list := l }
              packet := .running t (.handlingTemp m) }
          | [] => none
      | .running t (.working (e :: es)) =>
          some { s.effect e with packet := .running t (.working es) }
      | .running t (.working []) => some { s with packet := .running t .waiting }
      | _ => none
  | .handle es => match s.packet with
      | .running t (.handlingRecv m) => some { s with
          recvHandled := s.recvHandled ++ [m]
          packet := .running t (.working es) }
      | .running t (.handlingTemp m) => some { s with
          tempHandled := s.tempHandled ++ [m]
          packet := .running t (.working es) }
      | _ => none
  | .block => match s.packet with
      | .running t (.working _) =>
          if s.userDepth < 0 then some { s with packet := .running t .blocked } else none
      | _ => none

def textStep (s : App T) : TextEvent → Option (App T)
  | .go => match s.text with
      | .running t .waiting =>
          if s.startText then some { s with text := .running t .reading } else none
      | .running t (.pushing m) => some { s.pushTemp m with text := .running t .reading }
      | .running t .ending =>
          some ({ s with runnerEnd := true, text := .returned }.setWorker t .waiting)
      | _ => none
  | .typed m => match s.text with
      | .running t .reading => some { s with text := .running t (.pushing m) }
      | _ => none
  | .close => match s.text with
      | .running t .reading => some { s with text := .running t .loggingOut }
      | _ => none
  | .logout m => match s.text with
      | .running t .loggingOut => some { s.pushSend m with text := .running t .ending }
      | _ => none

def App.take (s : App T) (t : T) : Runner → App T
  | .recv => { s with recv := .running t .testing }.setWorker t (.running .recv)
  | .send => { s with send := .running t .waiting }.setWorker t (.running .send)
  | .packet => { s with packet := .running t .waiting }.setWorker t (.running .packet)
  | .text => { s with
      text := .running t .waiting
      dangling := s.dangling || !s.textAlive }.setWorker t (.running .text)

def workerStep (s : App T) (t : T) : Option (App T) :=
  match s.worker t with
  | .waiting =>
      if s.poolEnd then some (s.setWorker t .ended)
      else if 0 < s.poolSem then some ({ s with poolSem := s.poolSem - 1 }.setWorker t .woken)
      else none
  | .woken => match s.listRunner with
      | [] => some (s.setWorker t .waiting)
      | r :: rs => some ({ s with listRunner := rs }.take t r)
  | .running _ | .ended => none

def mainStep [Fintype T] (servicesType : ℕ) (s : App T) : MainEvent → Option (App T)
  | .go => match s.main with
      | .pushing (r :: rs) =>
          some { s with listRunner := s.listRunner ++ [r], main := .releasing rs }
      | .releasing rs =>
          some { s with poolSem := Pool.hatchReleaseSemaphore s.poolSem, main := .pushing rs }
      | .pushing [] => some { s with main := if servicesType = 0 then .prompting else .naming }
      | .waiting =>
          -- leaving the block of the client destroys `Textrun`
          if s.runnerEnd then some { s with main := .aborting, textAlive := false } else none
      | .aborting => some { s with runnerEnd := true, main := .ending }
      | .ending => some { s with poolEnd := true, main := .joining }
      | .joining => if ∀ t, s.worker t = .ended then some { s with main := .returned } else none
      | .naming | .prompting | .returned => none
  | .login m => match s.main with
      | .naming => some { s.pushSend m with main := .waiting }
      | _ => none
  | .key => match s.main with
      | .prompting => some { s with main := .aborting }
      | _ => none

def appStep [Fintype T] (servicesType : ℕ) (s : App T) : AppAction T → Option (App T)
  | .recv e => recvStep s e
  | .send => sendStep s
  | .packet e => packetStep s e
  | .text e => textStep s e
  | .worker t => workerStep s t
  | .main e => mainStep servicesType s e

def App.start (servicesType : ℕ) : App T where
  listRunner := []
  poolSem := 0
  poolEnd := false
  worker _ := .waiting
  main := .pushing (runners servicesType)
  recvList := .empty
  sendList := .empty
  tempList := .empty
  startText := false
  runnerEnd := false
  recv := .created
  send := .created
  packet := .created
  text := .created
  queued := []
  sent := []
  recvQueued := []
  recvHandled := []
  tempQueued := []
  tempHandled := []
  textAlive := true
  dangling := false
  handlerEnd := false
  userDepth := 0

def application [Fintype T] (servicesType : ℕ) : Machine (App T) (AppAction T) where
  init s := s = .start servicesType
  step := appStep servicesType

/-! What each thread can do in one step, with the stage it leaves. -/

/-- Steps that the receiving runner has at most before it returns, once the end event is set. -/
def RecvStage.rank : RecvStage → ℕ
  | .testing => 0
  | .pushing _ => 1
  | .receiving => 2
  | .selecting => 3

inductive RecvChange (s : App T) : App T → Prop
  | move (t : T) (p q : RecvStage) (h : s.recv = .running t p)
      (hr : s.runnerEnd = true → q.rank < p.rank) : RecvChange s { s with recv := .running t q }
  | finish (t : T) (p : RecvStage) (h : s.recv = .running t p) :
      RecvChange s ({ s with recv := .returned }.setWorker t .waiting)
  | push (t : T) (m : Bytes) (h : s.recv = .running t (.pushing m)) :
      RecvChange s { s.pushRecv m with recv := .running t .testing }

inductive SendChange (s : App T) : App T → Prop
  | wait (t : T) (h : s.send = .running t .waiting) (hn : 0 < s.sendList.sem) :
      SendChange s { s with sendList := s.sendList.wait, send := .running t .woken }
  | finish (t : T) (h : s.send = .running t .waiting) (hn : s.sendList.sem = 0)
      (he : s.runnerEnd = true) :
      SendChange s ({ s with send := .returned }.setWorker t .waiting)
  | pop (t : T) (m : Bytes) (l : List Bytes) (h : s.send = .running t .woken)
      (hl : s.sendList.list = m :: l) :
      SendChange s { s with
        sendList := { s.sendList with list := l }
        send := .running t (.sending m) }
  | sent (t : T) (m : Bytes) (h : s.send = .running t (.sending m)) :
      SendChange s { s with sent := s.sent ++ [m], send := .running t .waiting }

inductive PacketChange (s : App T) : App T → Prop
  | waitRecv (t : T) (h : s.packet = .running t .waiting) (hn : 0 < s.recvList.sem) :
      PacketChange s { s with recvList := s.recvList.wait, packet := .running t .wokenRecv }
  | waitTemp (t : T) (h : s.packet = .running t .waiting) (hn : 0 < s.tempList.sem) :
      PacketChange s { s with tempList := s.tempList.wait, packet := .running t .wokenTemp }
  | finish (t : T) (h : s.packet = .running t .waiting) (hr : s.recvList.sem = 0)
      (ht : s.tempList.sem = 0) (he : s.runnerEnd = true) :
      PacketChange s ({ s with packet := .returned }.setWorker t .waiting)
  | popRecv (t : T) (m : Bytes) (l : List Bytes) (h : s.packet = .running t .wokenRecv)
      (hl : s.recvList.list = m :: l) :
      PacketChange s { s with
        recvList := { s.recvList with list := l }
        packet := .running t (.handlingRecv m) }
  | popTemp (t : T) (m : Bytes) (l : List Bytes) (h : s.packet = .running t .wokenTemp)
      (hl : s.tempList.list = m :: l) :
      PacketChange s { s with
        tempList := { s.tempList with list := l }
        packet := .running t (.handlingTemp m) }
  | handleRecv (t : T) (m : Bytes) (es : List Effect)
      (h : s.packet = .running t (.handlingRecv m)) :
      PacketChange s { s with
        recvHandled := s.recvHandled ++ [m]
        packet := .running t (.working es) }
  | handleTemp (t : T) (m : Bytes) (es : List Effect)
      (h : s.packet = .running t (.handlingTemp m)) :
      PacketChange s { s with
        tempHandled := s.tempHandled ++ [m]
        packet := .running t (.working es) }
  | effect (t : T) (e : Effect) (es : List Effect)
      (h : s.packet = .running t (.working (e :: es))) :
      PacketChange s { s.effect e with packet := .running t (.working es) }
  | handled (t : T) (h : s.packet = .running t (.working [])) :
      PacketChange s { s with packet := .running t .waiting }
  | block (t : T) (es : List Effect) (h : s.packet = .running t (.working es))
      (hd : s.userDepth < 0) : PacketChange s { s with packet := .running t .blocked }

inductive TextChange (s : App T) : App T → Prop
  | move (t : T) (p q : TextStage) (h : s.text = .running t p)
      (hw : p = .waiting → s.startText = true) : TextChange s { s with text := .running t q }
  | push (t : T) (m : Bytes) (h : s.text = .running t (.pushing m)) :
      TextChange s { s.pushTemp m with text := .running t .reading }
  | logout (t : T) (m : Bytes) (h : s.text = .running t .loggingOut) :
      TextChange s { s.pushSend m with text := .running t .ending }
  | finish (t : T) (h : s.text = .running t .ending) :
      TextChange s ({ s with runnerEnd := true, text := .returned }.setWorker t .waiting)

inductive WorkerChange (s : App T) : App T → Prop
  | finish (t : T) (h : s.worker t = .waiting) (he : s.poolEnd = true) :
      WorkerChange s (s.setWorker t .ended)
  | wait (t : T) (h : s.worker t = .waiting) (he : s.poolEnd = false) (hn : 0 < s.poolSem) :
      WorkerChange s ({ s with poolSem := s.poolSem - 1 }.setWorker t .woken)
  | idle (t : T) (h : s.worker t = .woken) (hl : s.listRunner = []) :
      WorkerChange s (s.setWorker t .waiting)
  | take (t : T) (r : Runner) (rs : List Runner) (h : s.worker t = .woken)
      (hl : s.listRunner = r :: rs) : WorkerChange s ({ s with listRunner := rs }.take t r)

inductive MainChange (servicesType : ℕ) (s : App T) : App T → Prop
  | push (r : Runner) (rs : List Runner) (h : s.main = .pushing (r :: rs)) :
      MainChange servicesType s
        { s with listRunner := s.listRunner ++ [r], main := .releasing rs }
  | release (rs : List Runner) (h : s.main = .releasing rs) :
      MainChange servicesType s
        { s with poolSem := Pool.hatchReleaseSemaphore s.poolSem, main := .pushing rs }
  | pushed (h : s.main = .pushing []) :
      MainChange servicesType s
        { s with main := if servicesType = 0 then .prompting else .naming }
  | login (m : Bytes) (h : s.main = .naming) :
      MainChange servicesType s { s.pushSend m with main := .waiting }
  | waited (h : s.main = .waiting) (he : s.runnerEnd = true) :
      MainChange servicesType s { s with main := .aborting, textAlive := false }
  | key (h : s.main = .prompting) : MainChange servicesType s { s with main := .aborting }
  | abort (h : s.main = .aborting) :
      MainChange servicesType s { s with runnerEnd := true, main := .ending }
  | endPool (h : s.main = .ending) :
      MainChange servicesType s { s with poolEnd := true, main := .joining }
  | join (h : s.main = .joining) (hw : ∀ t, s.worker t = .ended) :
      MainChange servicesType s { s with main := .returned }

variable {s u : App T}

theorem recvChange_of_step {e : RecvEvent} (h : recvStep s e = some u) : RecvChange s u := by
  cases e with
  | test =>
      simp only [recvStep] at h
      split at h
      · rename_i t ht
        split at h
        · exact Option.some.inj h ▸ .finish t _ ht
        · rename_i he
          exact Option.some.inj h ▸ .move t _ _ ht (fun hr => absurd hr he)
      · cases h
  | selectError =>
      simp only [recvStep] at h
      split at h
      · rename_i t ht
        exact Option.some.inj h ▸ .finish t _ ht
      · cases h
  | timeout | ready | nothing =>
      simp only [recvStep] at h
      split at h
      · rename_i t ht
        exact Option.some.inj h ▸ .move t _ _ ht (fun _ => by decide)
      · cases h
  | datagram a d =>
      simp only [recvStep] at h
      split at h
      · rename_i t ht
        split at h
        · exact Option.some.inj h ▸ .move t _ _ ht (fun _ => Nat.lt_add_one 1)
        · cases h
      · cases h
  | push =>
      simp only [recvStep] at h
      split at h
      · rename_i t m ht
        exact Option.some.inj h ▸ .push t m ht
      · cases h

theorem sendChange_of_step (h : sendStep s = some u) : SendChange s u := by
  simp only [sendStep] at h
  split at h
  · rename_i t ht
    split at h
    · rename_i hn
      exact Option.some.inj h ▸ .wait t ht hn
    · rename_i hn
      split at h
      · rename_i he
        exact Option.some.inj h ▸ .finish t ht (Nat.eq_zero_of_not_pos hn) he
      · cases h
  · rename_i t ht
    split at h
    · rename_i m l hl
      exact Option.some.inj h ▸ .pop t m l ht hl
    · cases h
  · rename_i t m ht
    exact Option.some.inj h ▸ .sent t m ht
  · cases h

theorem packetChange_of_step {e : PacketEvent} (h : packetStep s e = some u) :
    PacketChange s u := by
  cases e with
  | go =>
      simp only [packetStep] at h
      split at h
      · rename_i t ht
        split at h
        · rename_i hn
          exact Option.some.inj h ▸ .waitRecv t ht hn
        · rename_i hr
          split at h
          · rename_i hn
            exact Option.some.inj h ▸ .waitTemp t ht hn
          · rename_i hn
            split at h
            · rename_i he
              exact Option.some.inj h ▸
                .finish t ht (Nat.eq_zero_of_not_pos hr) (Nat.eq_zero_of_not_pos hn) he
            · cases h
      · rename_i t ht
        split at h
        · rename_i m l hl
          exact Option.some.inj h ▸ .popRecv t m l ht hl
        · cases h
      · rename_i t ht
        split at h
        · rename_i m l hl
          exact Option.some.inj h ▸ .popTemp t m l ht hl
        · cases h
      · rename_i t e es ht
        exact Option.some.inj h ▸ .effect t e es ht
      · rename_i t ht
        exact Option.some.inj h ▸ .handled t ht
      · cases h
  | handle es =>
      simp only [packetStep] at h
      split at h
      · rename_i t m ht
        exact Option.some.inj h ▸ .handleRecv t m es ht
      · rename_i t m ht
        exact Option.some.inj h ▸ .handleTemp t m es ht
      · cases h
  | block =>
      simp only [packetStep] at h
      split at h
      · rename_i t es ht
        split at h
        · rename_i hd
          exact Option.some.inj h ▸ .block t es ht hd
        · cases h
      · cases h

theorem textChange_of_step {e : TextEvent} (h : textStep s e = some u) : TextChange s u := by
  cases e with
  | go =>
      simp only [textStep] at h
      split at h
      · rename_i t ht
        split at h
        · rename_i hw
          exact Option.some.inj h ▸ .move t _ _ ht (fun _ => hw)
        · cases h
      · rename_i t m ht
        exact Option.some.inj h ▸ .push t m ht
      · rename_i t ht
        exact Option.some.inj h ▸ .finish t ht
      · cases h
  | typed m =>
      simp only [textStep] at h
      split at h
      · rename_i t ht
        exact Option.some.inj h ▸ .move t _ _ ht nofun
      · cases h
  | close =>
      simp only [textStep] at h
      split at h
      · rename_i t ht
        exact Option.some.inj h ▸ .move t _ _ ht nofun
      · cases h
  | logout m =>
      simp only [textStep] at h
      split at h
      · rename_i t ht
        exact Option.some.inj h ▸ .logout t m ht
      · cases h

theorem workerChange_of_step {t : T} (h : workerStep s t = some u) : WorkerChange s u := by
  simp only [workerStep] at h
  split at h
  · rename_i ht
    split at h
    · rename_i he
      exact Option.some.inj h ▸ .finish t ht he
    · rename_i he
      split at h
      · rename_i hn
        exact Option.some.inj h ▸ .wait t ht (Bool.eq_false_of_not_eq_true he) hn
      · cases h
  · rename_i ht
    split at h
    · rename_i hl
      exact Option.some.inj h ▸ .idle t ht hl
    · rename_i r rs hl
      exact Option.some.inj h ▸ .take t r rs ht hl
  · cases h
  · cases h

omit [DecidableEq T] in
theorem mainChange_of_step [Fintype T] {servicesType : ℕ} {e : MainEvent}
    (h : mainStep servicesType s e = some u) : MainChange servicesType s u := by
  cases e with
  | go =>
      simp only [mainStep] at h
      split at h
      · rename_i r rs hm
        exact Option.some.inj h ▸ .push r rs hm
      · rename_i rs hm
        exact Option.some.inj h ▸ .release rs hm
      · rename_i hm
        exact Option.some.inj h ▸ .pushed hm
      · rename_i hm
        split at h
        · rename_i he
          exact Option.some.inj h ▸ .waited hm he
        · cases h
      · rename_i hm
        exact Option.some.inj h ▸ .abort hm
      · rename_i hm
        exact Option.some.inj h ▸ .endPool hm
      · rename_i hm
        split at h
        · rename_i hw
          exact Option.some.inj h ▸ .join hm hw
        · cases h
      all_goals cases h
  | login m =>
      simp only [mainStep] at h
      split at h
      · rename_i hm
        exact Option.some.inj h ▸ .login m hm
      · cases h
  | key =>
      simp only [mainStep] at h
      split at h
      · rename_i hm
        exact Option.some.inj h ▸ .key hm
      · cases h

/-- Every step of the application is a step of one of its threads. -/
theorem appStep_cases [Fintype T] {servicesType : ℕ} {a : AppAction T}
    (h : appStep servicesType s a = some u) :
    RecvChange s u ∨ SendChange s u ∨ PacketChange s u ∨ TextChange s u ∨ WorkerChange s u ∨
      MainChange servicesType s u := by
  cases a with
  | recv e => exact .inl (recvChange_of_step h)
  | send => exact .inr (.inl (sendChange_of_step h))
  | packet e => exact .inr (.inr (.inl (packetChange_of_step h)))
  | text e => exact .inr (.inr (.inr (.inl (textChange_of_step h))))
  | worker t => exact .inr (.inr (.inr (.inr (.inl (workerChange_of_step h)))))
  | main e => exact .inr (.inr (.inr (.inr (.inr (mainChange_of_step h)))))

/-! The effects of the handlers. -/

/-- What the other threads see of a process. -/
def Process.channels (s : Process) : MsgQueue × MsgQueue × MsgQueue × Bool × Bool × ℤ :=
  (s.recvList, s.sendList, s.tempList, s.startText, s.runnerEnd, s.userLock.depth)

def Process.effect (s : Process) : Effect → Process
  | .send m => { s with sendList := (s.sendList.push m).2 }
  | .startText => { s with startText := true }
  | .servicesEnd => { s with runnerEnd := true }
  | .overLeave => { s with userLock := s.userLock.leave }

/-- The process has changed by effects, apart from the user list and the received buffer. -/
def HasEffects (s u : Process) : Prop :=
  ∃ es : List Effect, u.channels = (es.foldl Process.effect s).channels

section Handlers

variable {p q : Process}

theorem HasEffects.silent (h : q.channels = p.channels) : HasEffects p q := ⟨[], h⟩

theorem foldl_effect_sends (p : Process) (ms : List Bytes) :
    (ms.map Effect.send).foldl Process.effect p =
      { p with sendList := p.sendList.pushAll ms } := by
  induction ms generalizing p with
  | nil => rfl
  | cons m ms ih =>
      rw [List.map_cons, List.foldl_cons, ih]
      rfl

theorem HasEffects.sends (ms : List Bytes)
    (h : q.channels = { p with sendList := p.sendList.pushAll ms }.channels) : HasEffects p q :=
  ⟨ms.map .send, by rw [foldl_effect_sends, h]⟩

/-- The handler has found a listed user. -/
theorem HasEffects.found (ms : List Bytes) (h : q.channels =
    ({ p with sendList := p.sendList.pushAll ms }.effect .overLeave).channels) : HasEffects p q :=
  ⟨ms.map .send ++ [.overLeave], by rw [List.foldl_append, foldl_effect_sends, h]; rfl⟩

theorem wp_serverHandlers_effects (ho : p.owner = .handler) (t : MsgType) :
    wp (dispatchChat serverProtocol .received t) True (fun _ q => HasEffects p q) p := by
  cases t with
  | login =>
      change wp (Server.hatchMsgLogin .received) _ _ _
      rw [Server.wp_hatchMsgLogin ho]
      split_ifs
      · exact .sends [rename p.msg errorName] rfl
      · exact .sends (rename p.msg serverName :: _) rfl
      · exact .sends [rename p.msg serverName] rfl
  | update =>
      change wp (Server.hatchMsgUpdate .received) _ _ _
      rw [Server.wp_hatchMsgUpdate ho]
      split_ifs
      · exact .found [p.msg] rfl
      · exact .sends [rename p.msg errorName] rfl
  | logout =>
      change wp (Server.hatchMsgLogout .received) _ _ _
      rw [Server.wp_hatchMsgLogout ho]
      split_ifs
      · exact .found (p.msg.take (msgISize p.msg) :: _) rfl
      · exact .silent rfl
  | _ => exact HasEffects.silent rfl

theorem wp_clientUpdateUp_effects (ho : p.owner = .handler) :
    wp (Client.hatchMsgUpdateUp .received) True (fun _ q => HasEffects p q) p := by
  rw [Client.wp_hatchMsgUpdateUp ho]
  split
  · split
    · rename_i server _
      exact .sends [Client.updateRequest p server] rfl
    · trivial
  · trivial

theorem wp_clientText_effects (ho : p.owner = .handler) :
    wp (Client.hatchMsgText .received) True (fun _ q => HasEffects p q) p := by
  cases hi : p.userList[1]? with
  | none => exact (Client.wp_hatchMsgText_none hi).mpr trivial
  | some own =>
      rw [Client.wp_hatchMsgText ho hi]
      split
      · split
        · split
          · split
            · exact HasEffects.found _ rfl
            · trivial
          · split
            · split_ifs <;> exact .found [] rfl
            · trivial
        · exact wp_clientUpdateUp_effects ho
      · trivial

theorem wp_clientUpdate_effects (ho : p.owner = .handler) :
    wp (Client.hatchMsgUpdate .received) True (fun _ q => HasEffects p q) p := by
  cases hi : p.userList[1]? with
  | none => exact (Client.wp_hatchMsgUpdate_none hi).mpr trivial
  | some own =>
      by_cases ha : own.Active
      · rw [Client.wp_hatchMsgUpdate_active ho hi ha, Client.wp_hatchMsgUpdateOther ho hi]
        split_ifs
        · exact .found [] rfl
        · exact .silent rfl
        · exact HasEffects.sends [_] rfl
      · by_cases hl : own.status = some .login
        · rw [Client.wp_hatchMsgUpdate_login ho hi hl]
          split
          · exact .silent rfl
          · trivial
        · have hs := UserInfo.idle_of_not_active ha hl
          rw [Client.wp_hatchMsgUpdate_idle ho hi hs]
          exact .silent rfl

theorem wp_clientHandlers_effects (ho : p.owner = .handler) (t : MsgType) :
    wp (dispatchChat clientProtocol .received t) True (fun _ q => HasEffects p q) p := by
  cases t with
  | login =>
      change wp (Client.hatchMsgLogin .received) _ _ _
      cases hi : p.userList[1]? with
      | none => exact (Client.wp_hatchMsgLogin_none hi).mpr trivial
      | some own =>
          rw [Client.wp_hatchMsgLogin ho hi]
          split
          · by_cases hn : msgUserName p.msg = serverName
            · exact ⟨[.startText],
                by simp [Process.channels, Process.effect, CriticalSection.cycle, hn]⟩
            · exact .silent (by simp [Process.channels, CriticalSection.cycle, hn])
          · trivial
  | update => exact wp_clientUpdate_effects ho
  | text => exact wp_clientText_effects ho
  | backSyn =>
      change wp (Client.hatchMsgBackSyn .received) _ _ _
      rw [Client.wp_hatchMsgBackSyn ho]
      split_ifs
      · exact .found [] rfl
      · exact .silent rfl
  | logout =>
      change wp (Client.hatchMsgLogout .received) _ _ _
      cases hi : p.userList[1]? with
      | none =>
          rw [Client.wp_hatchMsgLogout_none hi ho]
          split_ifs
          exact .silent rfl
      | some own =>
          rw [Client.wp_hatchMsgLogout ho hi]
          split_ifs
          · exact ⟨[.servicesEnd, .overLeave], rfl⟩
          · exact .found [] rfl
          · exact .silent rfl
  | _ => exact HasEffects.silent rfl

theorem foldl_effect_received (p : Process) (b : Bytes) (es : List Effect) :
    es.foldl Process.effect (p.received b) = (es.foldl Process.effect p).received b := by
  induction es generalizing p with
  | nil => rfl
  | cons e es ih =>
      rw [List.foldl_cons, List.foldl_cons, ← ih]
      cases e <;> rfl

theorem HasEffects.of_received {b : Bytes} (h : HasEffects (p.received b) q) : HasEffects p q := by
  obtain ⟨es, he⟩ := h
  exact ⟨es, by rw [he, foldl_effect_received]; rfl⟩

/-- Whatever message the handling runner takes, a handler that returns has changed the lists and
the events, and left the critical section, by a list of effects. -/
theorem hatchMsgProc_effects {P : Protocol} (hP : P = serverProtocol ∨ P = clientProtocol)
    (b : Bytes) (p : Process) :
    wp (hatchMsgProc P b) True (fun _ q => HasEffects p q) p := by
  have hr : (p.received b).owner = .handler := rfl
  apply wp_hatchMsgProc_true
  · intro _ r
    exact .silent rfl
  · intro _
    rcases hP with rfl | rfl
    · exact wp_mono (fun _ _ => HasEffects.of_received) (wp_serverHandlers_effects hr _)
    · exact wp_mono (fun _ _ => HasEffects.of_received) (wp_clientHandlers_effects hr _)

end Handlers

section Simulation

omit [DecidableEq T] in
theorem App.effect_packet (s : App T) (e : Effect) : (s.effect e).packet = s.packet := by
  cases e <;> rfl

def App.channels (s : App T) : MsgQueue × MsgQueue × MsgQueue × Bool × Bool × ℤ :=
  (s.recvList, s.sendList, s.tempList, s.startText, s.runnerEnd, s.userDepth)

omit [DecidableEq T] in
theorem App.channels_effect {p : Process} (h : s.channels = p.channels) (e : Effect)
    (q : Status T PacketStage) :
    { s.effect e with packet := q }.channels = (p.effect e).channels := by
  simp only [App.channels, Process.channels, Prod.mk.injEq] at h
  obtain ⟨hr, hs, ht, hx, he, hd⟩ := h
  cases e <;> simp [App.channels, App.effect, App.pushSend, Process.channels, Process.effect,
    CriticalSection.leave, hr, hs, ht, hx, he, hd]

/-- The effects of a handler, undisturbed. -/
theorem run_working [Fintype T] {servicesType : ℕ} {t : T} {p : Process} (es : List Effect)
    (hp : s.packet = .running t (.working es)) (hc : s.channels = p.channels) :
    ∃ u, run (application servicesType) s (List.replicate (es.length + 1) (.packet .go)) = some u ∧
      u.channels = (es.foldl Process.effect p).channels ∧ u.packet = .running t .waiting := by
  induction es generalizing s p with
  | nil =>
      refine ⟨{ s with packet := .running t .waiting }, ?_, hc, rfl⟩
      simp [run, application, appStep, packetStep, hp]
  | cons e es ih =>
      obtain ⟨u, hu, hcu, hpu⟩ := ih (s := { s.effect e with packet := .running t (.working es) })
        rfl (App.channels_effect hc e _)
      refine ⟨u, ?_, hcu, hpu⟩
      rw [List.length_cons, List.replicate_succ]
      simpa [run, application, appStep, packetStep, hp] using hu

/-- Whatever a handler of the source does to the lists, the events and the critical section when it
returns, the handling runner does in some run of its own. -/
theorem handler_simulated [Fintype T] {servicesType : ℕ} {P : Protocol}
    (hP : P = serverProtocol ∨ P = clientProtocol) {b : Bytes} {p q : Process} {a : ℤ} {t : T}
    (hr : hatchMsgProc P b p = .ok (a, q)) (hp : s.packet = .running t (.handlingRecv b))
    (hc : s.channels = p.channels) :
    ∃ es u, run (application servicesType) s
        (.packet (.handle es) :: List.replicate (es.length + 1) (.packet .go)) = some u ∧
      u.channels = q.channels ∧ u.packet = .running t .waiting := by
  obtain ⟨es, he⟩ := wp_true_of_run hr (hatchMsgProc_effects hP b p)
  let v : App T := { s with
    recvHandled := s.recvHandled ++ [b]
    packet := .running t (.working es) }
  have hv : v.packet = .running t (.working es) := rfl
  obtain ⟨u, hu, hcu, hpu⟩ := run_working es hv hc
  refine ⟨es, u, ?_, hcu.trans he.symm, hpu⟩
  rw [run]
  simpa [application, appStep, packetStep, hp] using hu

end Simulation

end Hatch.Net
