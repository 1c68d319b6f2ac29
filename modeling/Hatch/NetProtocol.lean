import Hatch.NetServices

/-!
# Message handlers of the server and of a client

`CHatchProtocolServer` and `CHatchProtocolClient`, branch by branch. Handlers get
the received buffer as a pointer and decide at every exit whether to dispose of
it, hand it to the send queue, or leave it. The texts the source logs or prints
are not part of the state.
-/

namespace Hatch.Net

open ByteLayout FaultProgram

/-- The virtual handlers that `hatchMsgProc` dispatches to. -/
structure Protocol where
  hatchMsgLogin : PMsgSt → Handler ℤ
  hatchMsgUpdate : PMsgSt → Handler ℤ
  hatchMsgText : PMsgSt → Handler ℤ
  hatchMsgBackSyn : PMsgSt → Handler ℤ
  hatchMsgLogout : PMsgSt → Handler ℤ

namespace Server

def hatchMsgUpdateDown (p : PMsgSt) : Handler ℤ := hatchPushSendMsgGroup 0 p

def hatchMsgLogin (p : PMsgSt) : Handler ℤ := do
  let sender ← readFromAddr p
  let n ← copyUserName p
  let u ← hatchSetUserName { addr := sender.addr, port := sender.port } n
  let ret ← hatchPushUser u
  if ret < 0 then
    writeUserName errorName
    let _ ← hatchPushSendMsgList p
    return -1
  else
    writeUserName serverName
    let ret ← hatchPushSendMsgList p
    if ret < 0 then
      let _ ← hatchPopUser n
      dispose p
      return ret
    else
      -- the reply already belongs to the send queue when its header is read again
      let dest ← readFromAddr p
      let s ← Prog.get
      hatchMsgUpdateDown (.fresh (updateMsg updateDownOffset dest (contextUpdate s.junk n sender)))

def hatchMsgText (_ : PMsgSt) : Handler ℤ := pure 0

def hatchMsgUpdate (p : PMsgSt) : Handler ℤ := do
  let n ← compareListed p
  let ret ← hatchIsUserInList n
  if ret = 0 then
    writeUserName errorName
    let _ ← hatchPushSendMsgList p
    return 0
  else
    let _ ← hatchPushSendMsgList p
    return 0

def hatchMsgBackSyn (_ : PMsgSt) : Handler ℤ := pure 0

def hatchMsgLogout (p : PMsgSt) : Handler ℤ := do
  let n ← compareListed p
  let ret ← hatchIsUserInList n
  if ret = 0 then
    dispose p
    return 0
  else
    let _ ← hatchPopUser n
    let size ← readISize p
    let copy ← readBytes p size
    let _ ← hatchPushSendMsgList (.fresh copy)
    hatchPushSendMsgGroup 0 p

end Server

namespace Client

def hatchMsgLogin (p : PMsgSt) : Handler ℤ := do
  let ite ← hatchLocateUser none
  let n ← compareUserName p [serverName]
  if n = serverName then
    hatchSetStatus ite .login
    hatchStartText
    return 0
  else
    hatchSetStatus ite .null
    return 0

def hatchMsgUpdateUp (p : PMsgSt) : Handler ℤ := do
  let sender ← readFromAddr p
  let n ← copyUserName p
  let ite ← hatchLocateUser (some serverName)
  let server ← userAt ite
  let s ← Prog.get
  let dest := localSockAddr s.junk (server.addr, server.port)
  dispose p
  hatchPushSendMsgList (.fresh (updateMsg updateUpOffset dest (contextUpdate s.junk n sender)))

def hatchMsgText (p : PMsgSt) : Handler ℤ := do
  let ite ← hatchLocateUser none
  let own ← userAt ite
  let n ← compareListed p
  let ret ← hatchIsUserInList n
  if ret = 0 then
    hatchMsgUpdateUp p
  else
    let ite ← hatchLocateUser (some n)
    if n = own.name then
      hatchPushSendMsgGroup 1 p
    else
      let u ← userAt ite
      match u.status with
      | some .hide =>
          hatchSetStatus ite .online
          let _ ← readMsgText p
          dispose p
          return ret
      | some .online | some .busy =>
          let _ ← readMsgText p
          dispose p
          return ret
      | _ =>
          dispose p
          return ret

def peerUser (n : Bytes) (a : SockAddrIn) : Handler UserInfo :=
  hatchSetUserName { addr := a.addr, port := a.port, status := some .online } n

def writeBackSyn (a : SockAddrIn) (me : Endpoint) (own : Bytes) : Handler Unit := do
  writeField offFromAddr a.encode
  writeField offMsgType (leBytes 4 MsgType.backSyn.code)
  writeField offUserAddr ({ a with addr := me.1, port := me.2 } : SockAddrIn).encode
  writeUserName own

/-- The Update of another user: add it and answer with a BackSyn in the same buffer. -/
def hatchMsgUpdateOther (p : PMsgSt) (own : UserInfo) : Handler ℤ := do
  let n ← compareListed p
  let ret ← hatchIsUserInList n
  if ret ≠ 0 then
    return ret
  else
    let n ← compareUserName p [errorName]
    if n = errorName then
      dispose p
      return -1
    else
      let a ← readUserAddr p
      let u ← peerUser n a
      let ret ← hatchPushUser u
      if ret < 0 then
        dispose p
        return -1
      else
        let ite ← hatchLocateUser none
        let me ← userAt ite
        writeBackSyn a (me.addr, me.port) own.name
        hatchPushSendMsgList p

def hatchMsgUpdate (p : PMsgSt) : Handler ℤ := do
  let ite ← hatchLocateUser none
  let own ← userAt ite
  match own.status with
  | some .login =>
      let n ← compareUserName p [own.name]
      if own.name = n then
        hatchSetStatus ite .online
        dispose p
        return 0
      else
        hatchSetStatus ite .null
        dispose p
        return 0
  | some .online | some .hide | some .busy => hatchMsgUpdateOther p own
  | _ =>
      dispose p
      return 0

def hatchMsgBackSyn (p : PMsgSt) : Handler ℤ := do
  let n ← compareListed p
  let ret ← hatchIsUserInList n
  if ret ≠ 0 then
    dispose p
    return 0
  else
    let a ← readUserAddr p
    let u ← peerUser n a
    let ret ← hatchPushUser u
    if ret < 0 then
      dispose p
      return -1
    else
      return 0

def hatchMsgLogout (p : PMsgSt) : Handler ℤ := do
  let n ← compareListed p
  let ret ← hatchIsUserInList n
  if ret = 0 then
    dispose p
    return 0
  else
    let ite ← hatchLocateUser none
    let own ← userAt ite
    if own.name = n then
      hatchSetStatus ite .null
      dispose p
      hatchServicesEnd
      return 0
    else
      let _ ← hatchPopUser n
      dispose p
      return 0

end Client

def serverProtocol : Protocol where
  hatchMsgLogin := Server.hatchMsgLogin
  hatchMsgUpdate := Server.hatchMsgUpdate
  hatchMsgText := Server.hatchMsgText
  hatchMsgBackSyn := Server.hatchMsgBackSyn
  hatchMsgLogout := Server.hatchMsgLogout

def clientProtocol : Protocol where
  hatchMsgLogin := Client.hatchMsgLogin
  hatchMsgUpdate := Client.hatchMsgUpdate
  hatchMsgText := Client.hatchMsgText
  hatchMsgBackSyn := Client.hatchMsgBackSyn
  hatchMsgLogout := Client.hatchMsgLogout

/-- The handler becomes the owner of the buffer it is called with. -/
def receive (b : Bytes) : Handler Unit :=
  Prog.modify (fun s => { s with msg := b, owner := .handler, misuse := false })

def dispatchChat (P : Protocol) (p : PMsgSt) : MsgType → Handler ℤ
  | .login => P.hatchMsgLogin p
  | .update => P.hatchMsgUpdate p
  | .status => pure 0
  | .text => P.hatchMsgText p
  | .backSyn => P.hatchMsgBackSyn p
  | .logout => P.hatchMsgLogout p
  | .null | .other _ => pure (-1)

def dispatch (P : Protocol) (p : PMsgSt) : ProtocolType → Handler ℤ
  | .chat => do
      let t ← readMsgType p
      dispatchChat P p t
  | .lmt => pure 0
  | .null | .other _ => pure (-1)

def hatchMsgProc (P : Protocol) (b : Bytes) : Handler ℤ := do
  receive b
  let t ← readProtocolType .received
  dispatch P .received t

end Hatch.Net
