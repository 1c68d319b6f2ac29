import Hatch.NetProtocol
import Hatch.NetWire

/-!
# Agreement of the message builders with the reader

`Built` lists the messages that one side puts in its send queue, with the values
the builder stores. `readChat` performs the reads of `hatchMsgProc` and its
handlers on the buffer that arrives. The builders agree with the reader except for
the Update request of a client, whose context starts four bytes too early.
-/

namespace Hatch.Net

open ByteLayout FaultProgram Prog

inductive Built
  | login (junk : ℕ → UInt8) (n : UserName)
  | logout (junk : ℕ → UInt8) (n : UserName)
  | text (own : UserName) (words : Bytes)
      (fits : offMsgText + words.length + 1 ≤ msgPacketMaxLength) (u : UserInfo)
  | update (junk : ℕ → UInt8) (n : UserName) (a dest : SockAddrIn) (u : UserInfo)
  | updateUp (junk : ℕ → UInt8) (n : UserName) (a : SockAddrIn) (server : Endpoint)
  | backSyn (junk : ℕ → UInt8) (n : UserName) (a dest : SockAddrIn) (u : UserInfo)
      (sender : SockAddrIn) (own : UserName) (me : Endpoint)

namespace Built

/-- The buffer in the send queue. Text and Update go through the group send; BackSyn
is written over the Update as it was received. -/
def bytes : Built → Bytes
  | login junk n => requestMsg junk .login n.bytes
  | logout junk n => requestMsg junk .logout n.bytes
  | text own words _ u => readdress (textMsg own.bytes words) u
  | update junk n a dest u =>
      readdress (updateMsg updateDownOffset dest (contextUpdate junk n.bytes a)) u
  | updateUp junk n a server =>
      updateMsg updateUpOffset (localSockAddr junk server) (contextUpdate junk n.bytes a)
  | backSyn junk n a dest u sender own me =>
      backSynMsg (recvMsg sender (wireOf
        (readdress (updateMsg updateDownOffset dest (contextUpdate junk n.bytes a)) u)))
        a me own.bytes

def msgType : Built → MsgType
  | login .. => .login
  | logout .. => .logout
  | text .. => .text
  | update .. => .update
  | updateUp .. => .update
  | backSyn .. => .backSyn

def userName : Built → Bytes
  | login _ n => n.bytes
  | logout _ n => n.bytes
  | text own _ _ _ => own.bytes
  | update _ n _ _ _ => n.bytes
  | updateUp _ n _ _ => n.bytes
  | backSyn _ _ _ _ _ _ own _ => own.bytes

def userAddr : Built → Option SockAddrIn
  | login .. => none
  | logout .. => none
  | text .. => none
  | update _ _ a _ _ => some a
  | updateUp _ _ a _ => some a
  | backSyn _ _ a _ _ _ _ me => some { a with addr := me.1, port := me.2 }

def IsUpdateRequest : Built → Prop
  | updateUp .. => True
  | _ => False

end Built

/-- The reads of the receiver, with the user address for Update and BackSyn. -/
def readChat (withAddr : Bool) :
    Handler (ProtocolType × MsgType × Bytes × Option SockAddrIn) := do
  let p ← readProtocolType .received
  let t ← readMsgType .received
  let n ← readUserName .received
  if withAddr then
    let a ← readUserAddr .received
    return (p, t, n, some a)
  else
    return (p, t, n, none)

/-- Reading `m` as it arrives from `sender` returns what its builder stored. -/
structure Built.Agrees (m : Built) (sender : SockAddrIn) (s : Process) : Prop where
  reads : wp (do
    receive (recvMsg sender (wireOf m.bytes))
    readChat m.userAddr.isSome) False
    (fun r _ => r = (.chat, m.msgType, m.userName, m.userAddr)) s

section Read

variable {b : Bytes} {t : MsgType} {n : Bytes} {a : SockAddrIn} {s : Process}

theorem Carries.readChat (h : Carries b t n) :
    wp (do receive b; readChat false) False (fun r _ => r = (.chat, t, n, none)) s := by
  have hb : 69 ≤ b.length := h.long
  have hz : (0 : UInt8) ∈ b.drop 36 := h.readable
  simp [Net.readChat, receive, Process.touched, hz, h.protocolType, h.msgType, h.name]
  omega

theorem CarriesAddr.readChat (h : CarriesAddr b t n a) :
    wp (do receive b; readChat true) False (fun r _ => r = (.chat, t, n, some a)) s := by
  have hb : 84 ≤ b.length := h.addrInside
  have hz : (0 : UInt8) ∈ b.drop 36 := h.readable
  simp [Net.readChat, receive, Process.touched, hz, h.protocolType, h.msgType, h.name, h.addr]
  omega

end Read

section Agreement

variable {m : Built} {sender : SockAddrIn} {s : Process}

theorem Built.agrees_of_carries (ha : m.userAddr = none)
    (h : Carries m.bytes m.msgType m.userName) : m.Agrees sender s := by
  constructor
  rw [ha]
  exact h.recvMsg.readChat

theorem Built.agrees_of_carriesAddr {a : SockAddrIn} (ha : m.userAddr = some a)
    (h : CarriesAddr m.bytes m.msgType m.userName a) : m.Agrees sender s := by
  constructor
  rw [ha]
  exact h.recvMsg.readChat

end Agreement

theorem carriesAddr_update (junk : ℕ → UInt8) (n : UserName) (a dest : SockAddrIn) (u : UserInfo) :
    CarriesAddr (readdress (updateMsg updateDownOffset dest (contextUpdate junk n.bytes a)) u)
      .update n.bytes a :=
  (carriesAddr_updateMsg n.noNul n.fits).readdress

/-- The address a reader expects lies outside the Update request of a client. -/
theorem length_updateUp_arrives (junk : ℕ → UInt8) (n : UserName) (a sender : SockAddrIn)
    (server : Endpoint) :
    (recvMsg sender (wireOf (Built.updateUp junk n a server).bytes)).length = 80 := by
  have hc : (contextUpdate junk n.bytes a).length = 56 := length_contextUpdate n.fits
  have hlen : (Built.updateUp junk n a server).bytes.length = 80 :=
    show (updateMsg updateUpOffset _ _).length = _ from length_updateMsg hc (by decide)
  have hsize : msgISize (Built.updateUp junk n a server).bytes = 80 := by
    have hf : field (Built.updateUp junk n a server).bytes 0 4 = leBytes 4 80 := by
      rw [Built.bytes, updateMsg]
      apply field_assign
      · simp [updateFields, hc, updateUpOffset]
      · simp [updateFields, Apart, updateUpOffset]
      · simp [updateFields, updateUpOffset]
      · simp
    rw [msgISize, hf]
    rfl
  rw [length_recvMsg, wireOf, length_field]
  · simp [hsize]
  · simp [hsize, hlen]

theorem Built.agrees_of_not_updateRequest {m : Built} (h : ¬ m.IsUpdateRequest)
    (sender : SockAddrIn) (s : Process) : m.Agrees sender s := by
  cases m with
  | login junk n =>
      have hc : Carries (requestMsg junk .login n.bytes) .login n.bytes :=
        carries_requestMsg (by simp) n.noNul n.fits
      exact Built.agrees_of_carries (m := .login junk n) rfl hc
  | logout junk n =>
      have hc : Carries (requestMsg junk .logout n.bytes) .logout n.bytes :=
        carries_requestMsg (by simp) n.noNul n.fits
      exact Built.agrees_of_carries (m := .logout junk n) rfl hc
  | text own words fits u =>
      have hc := (carries_textMsg own.noNul own.fits fits).readdress (u := u)
      exact Built.agrees_of_carries (m := .text own words fits u) rfl hc
  | update junk n a dest u =>
      have hc := carriesAddr_update junk n a dest u
      exact Built.agrees_of_carriesAddr (m := .update junk n a dest u) rfl hc
  | updateUp junk n a server => exact absurd trivial h
  | backSyn junk n a dest u from' own me =>
      have hr : CarriesAddr (recvMsg from' (wireOf (Built.update junk n a dest u).bytes)) .update
          n.bytes a := (carriesAddr_update junk n a dest u).recvMsg
      exact Built.agrees_of_carriesAddr (m := .backSyn junk n a dest u from' own me) rfl
        (hr.backSyn own.fits own.noNul)

theorem Built.not_agrees_updateUp (junk : ℕ → UInt8) (n : UserName) (a sender : SockAddrIn)
    (server : Endpoint) (s : Process) : ¬ (Built.updateUp junk n a server).Agrees sender s := by
  rintro ⟨hr⟩
  have hlen := length_updateUp_arrives junk n a sender server
  simp [Built.userAddr, readChat, receive, hlen] at hr

theorem agrees_iff_not_updateRequest (m : Built) (sender : SockAddrIn) (s : Process) :
    m.Agrees sender s ↔ ¬ m.IsUpdateRequest := by
  constructor
  · intro h hu
    cases m with
    | updateUp junk n a server => exact Built.not_agrees_updateUp junk n a sender server s h
    | _ => exact hu
  · intro h
    exact Built.agrees_of_not_updateRequest h sender s

/-- The server reads the request about `bob` as a message of an unknown type. -/
theorem updateUp_misread :
    ¬ (Built.updateUp (fun _ => 0) bobName ⟨2, 0x394f, 0x0100007f, 0⟩ serverEndpoint).Agrees
        ⟨2, 0x394f, 0x0100007f, 0⟩ (Process.fresh (fun _ => 0)) ∧
      msgMsgType (recvMsg ⟨2, 0x394f, 0x0100007f, 0⟩ (wireOf
        (Built.updateUp (fun _ => 0) bobName ⟨2, 0x394f, 0x0100007f, 0⟩ serverEndpoint).bytes)) =
        .other 0x00626f62 := by
  constructor
  · exact Built.not_agrees_updateUp _ _ _ _ _ _
  · decide +kernel

end Hatch.Net
