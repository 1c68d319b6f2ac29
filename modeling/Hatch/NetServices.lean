import Hatch.NetUserList

/-!
# Services, message queues and message construction

The send queue takes ownership of a pushed buffer. The builders place their
payload with the offsets the source computes. `hatchPacketRecvProc` and
`hatchPacketSendProc` put the local header on a datagram and take it off.
-/

namespace Hatch.Net

open ByteLayout FaultProgram

def PMsgSt.content (s : Process) : PMsgSt → Bytes
  | .received => s.msg
  | .fresh b => b

def giveAway (s : Process) : PMsgSt → Process
  | .received => s.handOver .sendQueue
  | .fresh _ => s

def hatchPushSendMsgList (p : PMsgSt) : Handler ℤ := do
  let s ← Prog.get
  let r := s.sendList.push (p.content s)
  Prog.modify (fun s => { s with sendList := r.2 })
  if r.1 = 0 then
    Prog.modify (fun s => giveAway s p)
    return r.1
  else
    return r.1

def hatchPushReadMsgList (b : Bytes) : Handler ℤ := do
  let s ← Prog.get
  let r := s.recvList.push b
  Prog.modify (fun s => { s with recvList := r.2 })
  return r.1

def hatchPushTempMsgList (b : Bytes) : Handler ℤ := do
  let s ← Prog.get
  let r := s.tempList.push b
  Prog.modify (fun s => { s with tempList := r.2 })
  return r.1

/-- `memcpy_s` of `m_iSize` bytes, with the address of user `u` in the header. -/
def readdress (b : Bytes) (u : UserInfo) : Bytes :=
  patch b offFromAddr ({ msgFromAddr b with
    addr := u.addr, port := u.port, family := afInet } : SockAddrIn).encode

def hatchPushSendMsgGroupLoop (p : PMsgSt) : List UserInfo → Handler Unit
  | [] => pure ()
  | u :: us => do
      let n ← readISize p
      let b ← readBytes p n
      Prog.require (offFromAddr + sizeofSockAddrIn ≤ n) .outOfBounds
      let _ ← hatchPushSendMsgList (.fresh (readdress b u))
      hatchPushSendMsgGroupLoop p us

def hatchPushSendMsgGroup (servicesType : ℕ) (p : PMsgSt) : Handler ℤ := do
  hatchEnter
  let s ← Prog.get
  Prog.require (1 + servicesType ≤ s.userList.length) .badIterator
  hatchPushSendMsgGroupLoop p (s.userList.drop (1 + servicesType))
  dispose p
  hatchLeave
  return 0

def serverUser : UserInfo where
  addr := serverEndpoint.1
  port := serverEndpoint.2
  name := serverName
  status := some .online

def clientInitUser : UserInfo where
  addr := clientEndpoint.1
  port := clientEndpoint.2
  name := clientInitName
  status := some .online

/-- `servicesType` is the compile-time `SERVICES_TYPE`: 0 for the server, 1 for a client. -/
def hatchInitialize (servicesType : ℕ) : Handler ℤ := do
  let ret ← hatchPushUser serverUser
  if ret < 0 then
    return ret
  else if servicesType = 0 then
    return 0
  else
    hatchPushUser clientInitUser

def hatchSetOwnerAddr (a : SockAddrIn) : Handler Unit := do
  let ite ← hatchLocateUser none
  let u ← userAt ite
  Prog.modify (fun s =>
    { s with userList := s.userList.set ite { u with addr := a.addr, port := a.port } })

def hatchServicesEnd : Handler Unit := Prog.modify (fun s => { s with runnerEnd := true })

def hatchStartText : Handler Unit := Prog.modify (fun s => { s with startText := true })

def localSockAddr (junk : ℕ → UInt8) (e : Endpoint) : SockAddrIn :=
  ⟨afInet, e.2, e.1, UInt64.ofNat (leNat (alloc 8 junk))⟩

def requestFields (junk : ℕ → UInt8) (t : MsgType) (n : Bytes) : List (ℕ × Bytes) :=
  [(offChat, leBytes 4 sizeofMsgContext),
    (offMsgType, leBytes 4 t.code),
    (offUserName, n ++ [0]),
    (offMsgText, [0]),
    (0, leBytes 4 sizeofMsgSt),
    (offFromAddr, (localSockAddr junk serverEndpoint).encode),
    (offProtocolType, leBytes 4 ProtocolType.chat.code)]

/-- The Login or Logout request of a client, in a buffer of `sizeof(MsgSt)` bytes. -/
def requestMsg (junk : ℕ → UInt8) (t : MsgType) (n : Bytes) : Bytes :=
  assign (alloc sizeofMsgSt junk) (requestFields junk t n)

def hatchClientRequest (t : MsgType) (name : Option Bytes) : Handler ℤ := do
  let ite ← hatchLocateUser none
  match name with
  | none =>
      let u ← userAt ite
      let s ← Prog.get
      hatchPushSendMsgList (.fresh (requestMsg s.junk t u.name))
  | some n =>
      hatchSetNameAt ite n
      let s ← Prog.get
      hatchPushSendMsgList (.fresh (requestMsg s.junk t n))

def hatchClientLogin (name : Option Bytes) : Handler ℤ := hatchClientRequest .login name

def hatchClientLogout (name : Option Bytes) : Handler ℤ := hatchClientRequest .logout name

def contextUpdateFields (n : Bytes) (a : SockAddrIn) : List (ℕ × Bytes) :=
  [(0, leBytes 4 sizeofMsgContextUpdateDown),
    (4, leBytes 4 MsgType.update.code),
    (8 + usernameMaxLength, a.encode),
    (8, n ++ [0])]

/-- `MsgContextUpdateDown`, also `MsgContextUpdateUp`, on the stack. -/
def contextUpdate (junk : ℕ → UInt8) (n : Bytes) (a : SockAddrIn) : Bytes :=
  assign (alloc sizeofMsgContextUpdateDown junk) (contextUpdateFields n a)

def updateFields (offset : ℕ) (dest : SockAddrIn) (context : Bytes) : List (ℕ × Bytes) :=
  [(0, leBytes 4 (sizeofMsgContextUpdateDown + offset)),
    (offProtocolType, leBytes 4 ProtocolType.chat.code),
    (offFromAddr, dest.encode),
    (offset, context)]

/-- The zeroed `MsgSt` that carries `context` at `offset`. -/
def updateMsg (offset : ℕ) (dest : SockAddrIn) (context : Bytes) : Bytes :=
  assign (List.replicate (sizeofMsgContextUpdateDown + offset) 0) (updateFields offset dest context)

/-- Offset of the server's Update: past the size field of `MsgAddr`. -/
def updateDownOffset : ℕ := sizeofMsgAddr - sizeofMsgContext + offMsgContext

/-- Offset of the client's Update request: at the start of the union. -/
def updateUpOffset : ℕ := offMsgContext

def textFields (own text : Bytes) : List (ℕ × Bytes) :=
  [(offUserName, own ++ [0]),
    (offFromAddr, leBytes 2 afInet.toNat),
    (offMsgType, leBytes 4 MsgType.text.code),
    (offProtocolType, leBytes 4 ProtocolType.chat.code),
    (offMsgText, text ++ [0]),
    (0, leBytes 4 (text.length + offMsgText + 1)),
    (offChat, leBytes 4 (sizeofMsgContext + text.length))]

/-- The Text message of `hatchTextProc`, copied out of a zeroed buffer of 1024 bytes. -/
def textMsg (own text : Bytes) : Bytes :=
  (assign (List.replicate msgPacketMaxLength 0) (textFields own text)).take
    (text.length + offMsgText + 1)

def closeText : Bytes := [0x63, 0x6c, 0x6f, 0x73, 0x65]

def hatchTextProc (text : Bytes) : Handler ℤ := do
  let ite ← hatchLocateUser none
  let own ← userAt ite
  Prog.require (offMsgText + text.length + 1 ≤ msgPacketMaxLength) .outOfBounds
  if text = closeText then
    let _ ← hatchClientLogout none
    hatchServicesEnd
    return 0
  else
    hatchPushTempMsgList (textMsg own.name text)

def backSynFields (a : SockAddrIn) (me : Endpoint) (own : Bytes) : List (ℕ × Bytes) :=
  [(offFromAddr, a.encode),
    (offMsgType, leBytes 4 MsgType.backSyn.code),
    (offUserAddr, ({ a with addr := me.1, port := me.2 } : SockAddrIn).encode),
    (offUserName, own ++ [0])]

def backSynMsg (b : Bytes) (a : SockAddrIn) (me : Endpoint) (own : Bytes) : Bytes :=
  assign b (backSynFields a me own)

def wireOf (b : Bytes) : Bytes := field b offProtocolType (msgISize b - offProtocolType)

def recvFields (sender : SockAddrIn) (datagram : Bytes) : List (ℕ × Bytes) :=
  [(0, leBytes 4 (datagram.length + offProtocolType)),
    (offFromAddr, sender.encode),
    (offProtocolType, datagram)]

def recvMsg (sender : SockAddrIn) (datagram : Bytes) : Bytes :=
  assign (List.replicate (datagram.length + offProtocolType) 0) (recvFields sender datagram)

/-- One datagram: an empty or oversized one is skipped, a full list drops it. -/
def hatchPacketRecvProc (sender : SockAddrIn) (datagram : Bytes) : Handler Unit :=
  if datagram = [] ∨ msgPacketMaxLength < datagram.length then pure ()
  else do
    let _ ← hatchPushReadMsgList (recvMsg sender datagram)
    return ()

def MsgQueue.pushAll (q : MsgQueue) (ms : List Bytes) : MsgQueue :=
  ms.foldl (fun q m => (q.push m).2) q

@[simp] theorem MsgQueue.pushAll_nil (q : MsgQueue) : q.pushAll [] = q := rfl

@[simp] theorem MsgQueue.pushAll_cons (q : MsgQueue) (m : Bytes) (ms : List Bytes) :
    q.pushAll (m :: ms) = (q.push m).2.pushAll ms := rfl

/-- A message whose `m_iSize` covers its header and fits its buffer can be copied. -/
def Groupable (b : Bytes) : Prop :=
  4 ≤ b.length ∧ msgISize b ≤ b.length ∧ offFromAddr + sizeofSockAddrIn ≤ msgISize b

instance : DecidablePred Groupable := fun _ => inferInstanceAs (Decidable (_ ∧ _ ∧ _))

def groupCopies (b : Bytes) (us : List UserInfo) : List Bytes :=
  us.map (readdress (b.take (msgISize b)))

theorem MsgQueue.push_of_lt {q : MsgQueue} (h : q.sem < netMessageListMaxLength) (m : Bytes) :
    q.push m = (0, ⟨q.sem + 1, q.list ++ [m], q.refused⟩) := if_pos h

theorem MsgQueue.push_of_not_lt {q : MsgQueue} (h : ¬ q.sem < netMessageListMaxLength) (m : Bytes) :
    q.push m = (-1, ⟨q.sem, q.list, q.refused + 1⟩) := if_neg h

/-- The queue takes the messages in front until it is full and refuses the others. -/
theorem MsgQueue.pushAll_eq (q : MsgQueue) (ms : List Bytes) :
    q.pushAll ms = ⟨q.sem + min (netMessageListMaxLength - q.sem) ms.length,
      q.list ++ ms.take (netMessageListMaxLength - q.sem),
      q.refused + (ms.length - (netMessageListMaxLength - q.sem))⟩ := by
  induction ms generalizing q with
  | nil => simp
  | cons m ms ih =>
      rw [pushAll_cons, ih, List.length_cons]
      by_cases h : q.sem < netMessageListMaxLength
      · have hsucc :
            netMessageListMaxLength - q.sem = netMessageListMaxLength - (q.sem + 1) + 1 := by
          omega
        rw [push_of_lt h, hsucc, List.take_succ_cons, Nat.succ_min_succ, Nat.add_sub_add_right]
        simp only [List.append_assoc, List.singleton_append]
        congr 1
        omega
      · have hzero : netMessageListMaxLength - q.sem = 0 := by omega
        rw [push_of_not_lt h]
        simp only [hzero, Nat.zero_min, List.take_zero, Nat.sub_zero]
        congr 1
        omega

section Rules

open Prog

variable {E : Prop} {s : Process}

@[simp] theorem wp_hatchPushSendMsgList_fresh (b : Bytes) (Q : ℤ → Process → Prop) :
    wp (hatchPushSendMsgList (.fresh b)) E Q s ↔
      if s.sendList.sem < netMessageListMaxLength
        then Q 0 { s with sendList := (s.sendList.push b).2 }
        else Q (-1) { s with sendList := (s.sendList.push b).2 } := by
  by_cases h : s.sendList.sem < netMessageListMaxLength
  · simp [hatchPushSendMsgList, PMsgSt.content, MsgQueue.push_of_lt h, h, giveAway]
  · simp [hatchPushSendMsgList, PMsgSt.content, MsgQueue.push_of_not_lt h, h]

@[simp] theorem wp_hatchPushSendMsgList_received (Q : ℤ → Process → Prop) :
    wp (hatchPushSendMsgList .received) E Q s ↔
      if s.sendList.sem < netMessageListMaxLength
        then Q 0 ({ s with sendList := (s.sendList.push s.msg).2 }.handOver .sendQueue)
        else Q (-1) { s with sendList := (s.sendList.push s.msg).2 } := by
  by_cases h : s.sendList.sem < netMessageListMaxLength
  · simp [hatchPushSendMsgList, PMsgSt.content, MsgQueue.push_of_lt h, h, giveAway]
  · simp [hatchPushSendMsgList, PMsgSt.content, MsgQueue.push_of_not_lt h, h]

theorem wp_groupLoop_fresh (b : Bytes) (us : List UserInfo) (Q : Unit → Process → Prop) :
    wp (hatchPushSendMsgGroupLoop (.fresh b) us) E Q s ↔ if us = [] ∨ Groupable b
      then Q () { s with sendList := s.sendList.pushAll (groupCopies b us) } else E := by
  induction us generalizing s with
  | nil => simp [hatchPushSendMsgGroupLoop, groupCopies]
  | cons u us ih =>
      simp only [hatchPushSendMsgGroupLoop, wp_bind, wp_readISize_fresh, wp_readBytes_fresh,
        wp_require, wp_hatchPushSendMsgList_fresh, ih, ite_self]
      rw [← ite_and, ← ite_and]
      simp only [and_assoc]
      change (if Groupable b then _ else E) ↔ _
      by_cases hg : Groupable b
      · simp [hg, groupCopies]
      · simp [hg]

theorem wp_groupLoop_received (us : List UserInfo) (ho : s.owner = .handler)
    (Q : Unit → Process → Prop) :
    wp (hatchPushSendMsgGroupLoop .received us) E Q s ↔ if us = [] ∨ Groupable s.msg
      then Q () { s with sendList := s.sendList.pushAll (groupCopies s.msg us) } else E := by
  induction us generalizing s with
  | nil => simp [hatchPushSendMsgGroupLoop, groupCopies]
  | cons u us ih =>
      have ht := Process.touched_of_owner ho
      have hi (q : MsgQueue) := ih (s := { s with sendList := q }) ho
      simp only [hatchPushSendMsgGroupLoop, wp_bind, wp_readISize_received, wp_readBytes_received,
        wp_require, wp_hatchPushSendMsgList_fresh, ht, hi, ite_self]
      rw [← ite_and, ← ite_and]
      simp only [and_assoc]
      change (if Groupable s.msg then _ else E) ↔ _
      by_cases hg : Groupable s.msg
      · simp [hg, groupCopies]
      · simp [hg]

theorem wp_hatchPushSendMsgGroup_fresh (st : ℕ) (b : Bytes) (Q : ℤ → Process → Prop) :
    wp (hatchPushSendMsgGroup st (.fresh b)) E Q s ↔
      if 1 + st ≤ s.userList.length then
        if s.userList.drop (1 + st) = [] ∨ Groupable b then
          Q 0 { s with
            sendList := s.sendList.pushAll (groupCopies b (s.userList.drop (1 + st)))
            userLock := s.userLock.cycle }
        else E
      else E := by
  simp [hatchPushSendMsgGroup, hatchEnter, hatchLeave, wp_groupLoop_fresh,
    CriticalSection.enter_leave]

theorem wp_hatchPushSendMsgGroup_received (st : ℕ) (ho : s.owner = .handler)
    (Q : ℤ → Process → Prop) :
    wp (hatchPushSendMsgGroup st .received) E Q s ↔
      if 1 + st ≤ s.userList.length then
        if s.userList.drop (1 + st) = [] ∨ Groupable s.msg then
          Q 0 { s with
            sendList := s.sendList.pushAll (groupCopies s.msg (s.userList.drop (1 + st)))
            userLock := s.userLock.cycle
            owner := .disposed }
        else E
      else E := by
  have hl := wp_groupLoop_received (E := E) (s := { s with userLock := s.userLock.enter })
    (s.userList.drop (1 + st)) ho
  simp only [hatchPushSendMsgGroup, hatchEnter, hatchLeave, wp_bind, wp_modify, wp_get, wp_require,
    hl]
  simp [Process.handOver, ho, CriticalSection.enter_leave]

end Rules

end Hatch.Net
