import Hatch.FaultProgram
import Hatch.NetCommon

/-!
# Global state of one chat process

A process owns the user list with its critical section, the three bounded message
queues, and the two events. While a message is handled its buffer `msg` is a token:
`owner` says who holds it, and `misuse` records any access or disposal made after
it has been given away. `Fault` collects the ways a handler leaves defined
behaviour: an access outside a buffer, a copy that `strcpy_s` refuses, and an
iterator that does not point at an element.
-/

namespace Hatch.Net

open ByteLayout FaultProgram

inductive Fault
  | outOfBounds | invalidParameter | badIterator
  deriving DecidableEq, Repr

/-- `CHatchUserInfo`; the constructor leaves the status unset. -/
structure UserInfo where
  addr : UInt32 := 0
  port : UInt16 := 0
  name : Bytes := []
  status : Option UserStatus := none
  deriving DecidableEq, Repr

/-- Recursion depth of a critical section and the lowest depth it ever had. -/
structure CriticalSection where
  depth : ℤ
  low : ℤ
  deriving DecidableEq, Repr

def CriticalSection.free : CriticalSection := ⟨0, 0⟩

def CriticalSection.enter (c : CriticalSection) : CriticalSection := ⟨c.depth + 1, c.low⟩

def CriticalSection.leave (c : CriticalSection) : CriticalSection :=
  ⟨c.depth - 1, min c.low (c.depth - 1)⟩

/-- A message list with the semaphore that counts it. `refused` counts the
releases that failed because the semaphore was at its maximum. -/
structure MsgQueue where
  sem : ℕ
  list : List Bytes
  refused : ℕ
  deriving DecidableEq, Repr

def MsgQueue.empty : MsgQueue := ⟨0, [], 0⟩

/-- Release the semaphore and push the message only if that succeeded. -/
def MsgQueue.push (q : MsgQueue) (m : Bytes) : ℤ × MsgQueue :=
  if q.sem < netMessageListMaxLength then (0, ⟨q.sem + 1, q.list ++ [m], q.refused⟩)
  else (-1, ⟨q.sem, q.list, q.refused + 1⟩)

def MsgQueue.pop (q : MsgQueue) : Option (Bytes × MsgQueue) :=
  match q.sem, q.list with
  | n + 1, m :: rest => some (m, ⟨n, rest, q.refused⟩)
  | _, _ => none

inductive Owner
  | handler | sendQueue | disposed
  deriving DecidableEq, Repr

structure Process where
  userList : List UserInfo
  userLock : CriticalSection
  recvList : MsgQueue
  sendList : MsgQueue
  tempList : MsgQueue
  startText : Bool
  runnerEnd : Bool
  msg : Bytes
  owner : Owner
  misuse : Bool
  junk : ℕ → UInt8

/-- Globals after `hatchInitializeGlobalVar`; `junk` is the content of fresh memory. -/
def Process.fresh (junk : ℕ → UInt8) : Process where
  userList := []
  userLock := .free
  recvList := .empty
  sendList := .empty
  tempList := .empty
  startText := false
  runnerEnd := false
  msg := []
  owner := .disposed
  misuse := false
  junk := junk

abbrev Handler (α : Type) := Prog Process Fault α

/-- A message pointer: the received buffer, or a buffer the handler built. -/
inductive PMsgSt
  | received
  | fresh (b : Bytes)
  deriving DecidableEq, Repr

/-- An access to the received buffer; it is a misuse unless the handler holds it. -/
def Process.touched (s : Process) : Process :=
  { s with misuse := s.misuse || decide (s.owner ≠ .handler) }

/-- The received buffer goes to `o`, which only its holder may decide. -/
def Process.handOver (s : Process) (o : Owner) : Process :=
  { s with
    owner := if s.owner = .handler then o else s.owner
    misuse := s.misuse || decide (s.owner ≠ .handler) }

def touch : Handler Unit := Prog.modify Process.touched

def load : PMsgSt → Handler Bytes
  | .received => do
      touch
      let s ← Prog.get
      return s.msg
  | .fresh b => pure b

def readWith {α : Type} (p : PMsgSt) (ok : Bytes → Prop) [DecidablePred ok] (f : Bytes → α) :
    Handler α := do
  let b ← load p
  Prog.require (ok b) .outOfBounds
  return f b

def readISize (p : PMsgSt) : Handler ℕ := readWith p (fun b => 4 ≤ b.length) msgISize

def readBytes (p : PMsgSt) (n : ℕ) : Handler Bytes :=
  readWith p (fun b => n ≤ b.length) (fun b => b.take n)

def readFromAddr (p : PMsgSt) : Handler SockAddrIn :=
  readWith p (fun b => offFromAddr + sizeofSockAddrIn ≤ b.length) msgFromAddr

def readProtocolType (p : PMsgSt) : Handler ProtocolType :=
  readWith p (fun b => offProtocolType + 4 ≤ b.length) msgProtocolType

def readMsgType (p : PMsgSt) : Handler MsgType :=
  readWith p (fun b => offMsgType + 4 ≤ b.length) msgMsgType

def readUserName (p : PMsgSt) : Handler Bytes :=
  readWith p (fun b => (0 : UInt8) ∈ b.drop offUserName) msgUserName

/-- `strcmp` with the names in `xs` reads up to the first difference: it runs out of a buffer
without a terminator only if what is left of the buffer is the beginning of one of them. -/
def Comparable (xs : List Bytes) (b : Bytes) : Prop :=
  (0 : UInt8) ∈ b.drop offUserName ∨ ∀ x ∈ xs, ¬ b.drop offUserName <+: x

instance (xs : List Bytes) : DecidablePred (Comparable xs) :=
  fun _ => inferInstanceAs (Decidable (_ ∨ _))

def compareUserName (p : PMsgSt) (xs : List Bytes) : Handler Bytes :=
  readWith p (Comparable xs) msgUserName

/-- `strcpy_s` from the user name to an array of its own size, of which it reads no more. -/
def copyUserName (p : PMsgSt) : Handler Bytes := do
  let n ← readWith p
    (fun b => (0 : UInt8) ∈ b.drop offUserName ∨ offUserName + usernameMaxLength ≤ b.length)
    msgUserName
  Prog.require (n.length < usernameMaxLength) .invalidParameter
  return n

def readMsgText (p : PMsgSt) : Handler Bytes :=
  readWith p (fun b => (0 : UInt8) ∈ b.drop offMsgText) (fun b => cstr b offMsgText)

def readUserAddr (p : PMsgSt) : Handler SockAddrIn :=
  readWith p (fun b => offUserAddr + sizeofSockAddrIn ≤ b.length) msgUserAddr

def writeField (off : ℕ) (d : Bytes) : Handler Unit := do
  touch
  let s ← Prog.get
  Prog.require (off + d.length ≤ s.msg.length) .outOfBounds
  Prog.modify (fun s => { s with msg := patch s.msg off d })

/-- `strcpy_s` into the user name of the received message. -/
def writeUserName (n : Bytes) : Handler Unit := do
  Prog.require (n.length < usernameMaxLength) .invalidParameter
  writeField offUserName (n ++ [0])

def dispose : PMsgSt → Handler Unit
  | .received => Prog.modify (fun s => s.handOver .disposed)
  | .fresh _ => pure ()

def alloc (n : ℕ) (junk : ℕ → UInt8) : Bytes := (List.range n).map junk

@[simp] theorem length_alloc (n : ℕ) (junk : ℕ → UInt8) : (alloc n junk).length = n := by
  simp [alloc]

@[simp] theorem Process.touched_msg (s : Process) : s.touched.msg = s.msg := rfl

theorem Process.touched_of_owner {s : Process} (h : s.owner = .handler) : s.touched = s := by
  unfold touched
  rw [h]
  simp [← h]

section Rules

open Prog

variable {E : Prop} {s : Process}

@[simp] theorem wp_touch (Q : Unit → Process → Prop) : wp touch E Q s ↔ Q () s.touched := Iff.rfl

theorem wp_readWith_received {α : Type} (ok : Bytes → Prop) [DecidablePred ok] (f : Bytes → α)
    (Q : α → Process → Prop) :
    wp (readWith .received ok f) E Q s ↔ if ok s.msg then Q (f s.msg) s.touched else E := by
  simp only [readWith, load, wp_bind, wp_touch, wp_get, wp_pure, wp_require]
  rfl

theorem wp_readWith_fresh {α : Type} (b : Bytes) (ok : Bytes → Prop) [DecidablePred ok]
    (f : Bytes → α) (Q : α → Process → Prop) :
    wp (readWith (.fresh b) ok f) E Q s ↔ if ok b then Q (f b) s else E := by
  simp [readWith, load]

@[simp] theorem wp_readISize_received (Q : ℕ → Process → Prop) :
    wp (readISize .received) E Q s ↔
      if 4 ≤ s.msg.length then Q (msgISize s.msg) s.touched else E :=
  wp_readWith_received _ _ Q

@[simp] theorem wp_readISize_fresh (b : Bytes) (Q : ℕ → Process → Prop) :
    wp (readISize (.fresh b)) E Q s ↔ if 4 ≤ b.length then Q (msgISize b) s else E :=
  wp_readWith_fresh b _ _ Q

@[simp] theorem wp_readBytes_received (n : ℕ) (Q : Bytes → Process → Prop) :
    wp (readBytes .received n) E Q s ↔
      if n ≤ s.msg.length then Q (s.msg.take n) s.touched else E :=
  wp_readWith_received _ _ Q

@[simp] theorem wp_readBytes_fresh (b : Bytes) (n : ℕ) (Q : Bytes → Process → Prop) :
    wp (readBytes (.fresh b) n) E Q s ↔ if n ≤ b.length then Q (b.take n) s else E :=
  wp_readWith_fresh b _ _ Q

@[simp] theorem wp_readFromAddr (Q : SockAddrIn → Process → Prop) :
    wp (readFromAddr .received) E Q s ↔ if offFromAddr + sizeofSockAddrIn ≤ s.msg.length
      then Q (msgFromAddr s.msg) s.touched else E :=
  wp_readWith_received _ _ Q

@[simp] theorem wp_readProtocolType (Q : ProtocolType → Process → Prop) :
    wp (readProtocolType .received) E Q s ↔ if offProtocolType + 4 ≤ s.msg.length
      then Q (msgProtocolType s.msg) s.touched else E :=
  wp_readWith_received _ _ Q

@[simp] theorem wp_readMsgType (Q : MsgType → Process → Prop) :
    wp (readMsgType .received) E Q s ↔ if offMsgType + 4 ≤ s.msg.length
      then Q (msgMsgType s.msg) s.touched else E :=
  wp_readWith_received _ _ Q

@[simp] theorem wp_readUserName (Q : Bytes → Process → Prop) :
    wp (readUserName .received) E Q s ↔ if (0 : UInt8) ∈ s.msg.drop offUserName
      then Q (msgUserName s.msg) s.touched else E :=
  wp_readWith_received _ _ Q

@[simp] theorem wp_compareUserName (xs : List Bytes) (Q : Bytes → Process → Prop) :
    wp (compareUserName .received xs) E Q s ↔ if Comparable xs s.msg
      then Q (msgUserName s.msg) s.touched else E :=
  wp_readWith_received _ _ Q

theorem msgUserName_of_unterminated {b : Bytes} (h : (0 : UInt8) ∉ b.drop offUserName) :
    msgUserName b = b.drop offUserName := by
  refine List.takeWhile_eq_self_iff.mpr fun x hx => ?_
  rw [bne_iff_ne]
  rintro rfl
  exact h hx

/-- A name that fills its field without a terminator is refused. -/
@[simp] theorem wp_copyUserName (Q : Bytes → Process → Prop) :
    wp (copyUserName .received) E Q s ↔
      if (0 : UInt8) ∈ s.msg.drop offUserName ∧ (msgUserName s.msg).length < usernameMaxLength
        then Q (msgUserName s.msg) s.touched else E := by
  simp only [copyUserName, wp_bind, wp_readWith_received, wp_require, wp_pure]
  by_cases hz : (0 : UInt8) ∈ s.msg.drop offUserName
  · simp only [hz, true_or, true_and, if_true]
  · have hlong (hl : offUserName + usernameMaxLength ≤ s.msg.length) :
        ¬ (msgUserName s.msg).length < usernameMaxLength := by
      rw [msgUserName_of_unterminated hz, List.length_drop]
      omega
    simp only [hz, false_or, false_and, if_false]
    split
    · next hl => rw [if_neg (hlong hl)]
    · exact Iff.rfl

@[simp] theorem wp_readMsgText (Q : Bytes → Process → Prop) :
    wp (readMsgText .received) E Q s ↔ if (0 : UInt8) ∈ s.msg.drop offMsgText
      then Q (cstr s.msg offMsgText) s.touched else E :=
  wp_readWith_received _ _ Q

@[simp] theorem wp_readUserAddr (Q : SockAddrIn → Process → Prop) :
    wp (readUserAddr .received) E Q s ↔ if offUserAddr + sizeofSockAddrIn ≤ s.msg.length
      then Q (msgUserAddr s.msg) s.touched else E :=
  wp_readWith_received _ _ Q

@[simp] theorem wp_writeField (off : ℕ) (d : Bytes) (Q : Unit → Process → Prop) :
    wp (writeField off d) E Q s ↔ if off + d.length ≤ s.msg.length
      then Q () { s.touched with msg := patch s.msg off d } else E := by
  simp only [writeField, wp_bind, wp_touch, wp_get, wp_modify, wp_require]
  rfl

@[simp] theorem wp_writeUserName (n : Bytes) (Q : Unit → Process → Prop) :
    wp (writeUserName n) E Q s ↔ if n.length < usernameMaxLength then
      if offUserName + (n.length + 1) ≤ s.msg.length
        then Q () { s.touched with msg := patch s.msg offUserName (n ++ [0]) } else E
      else E := by
  simp [writeUserName]

@[simp] theorem wp_dispose_received (Q : Unit → Process → Prop) :
    wp (dispose .received) E Q s ↔ Q () (s.handOver .disposed) := Iff.rfl

@[simp] theorem wp_dispose_fresh (b : Bytes) (Q : Unit → Process → Prop) :
    wp (dispose (.fresh b)) E Q s ↔ Q () s := Iff.rfl

end Rules

end Hatch.Net
