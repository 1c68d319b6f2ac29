import Hatch.ByteLayout

/-!
# Constants, enumerations and packed structures of the chat program

The layout constants follow the packed structures `MsgContext`,
`MsgContextUpdateDown`, `MsgAddr` and `MsgSt`: every offset is computed from the
sizes of the fields before it. Enumerators travel as 32-bit integers, so each
enumeration has a constructor for the values the source does not name.
-/

namespace Hatch.Net

open ByteLayout

abbrev usernameMaxLength : ℕ := 32
abbrev msgPacketMaxLength : ℕ := 1024
abbrev netMessageListMaxLength : ℕ := 0x100
abbrev semaphoreMaxCount : ℕ := 0x8ff

inductive UserStatus
  | login | online | hide | busy | null
  deriving DecidableEq, Repr

inductive ProtocolType
  | null | lmt | chat | other (code : ℕ)
  deriving DecidableEq, Repr

def ProtocolType.code : ProtocolType → ℕ
  | null => 0
  | lmt => 1
  | chat => 2
  | other n => n

def ProtocolType.ofCode : ℕ → ProtocolType
  | 0 => null
  | 1 => lmt
  | 2 => chat
  | n => other n

inductive MsgType
  | login | update | status | text | logout | backSyn | null | other (code : ℕ)
  deriving DecidableEq, Repr

def MsgType.code : MsgType → ℕ
  | login => 1
  | update => 2
  | status => 3
  | text => 4
  | logout => 5
  | backSyn => 6
  | null => 7
  | other n => n

def MsgType.ofCode : ℕ → MsgType
  | 1 => login
  | 2 => update
  | 3 => status
  | 4 => text
  | 5 => logout
  | 6 => backSyn
  | 7 => null
  | n => other n

/-- `sockaddr_in`; port and address hold the raw bytes in network order. -/
@[ext] structure SockAddrIn where
  family : UInt16
  port : UInt16
  addr : UInt32
  zero : UInt64
  deriving DecidableEq, Repr

abbrev Endpoint := UInt32 × UInt16

def SockAddrIn.endpoint (a : SockAddrIn) : Endpoint := (a.addr, a.port)

def afInet : UInt16 := 2

/-- `inet_addr("192.168.2.1")` and `htons(SERVER_PORT_START)`. -/
def serverEndpoint : Endpoint := (0x0102a8c0, 0xf9c5)

/-- `inet_addr("127.0.0.1")` and `htons(CLIENT_PORT_START)`. -/
def clientEndpoint : Endpoint := (0x0100007f, 0x394f)

abbrev sizeofSockAddrIn : ℕ := 16
abbrev sizeofMsgContext : ℕ := 4 + 4 + usernameMaxLength + 1
abbrev sizeofMsgContextUpdateDown : ℕ := 4 + 4 + usernameMaxLength + sizeofSockAddrIn
abbrev sizeofMsgAddr : ℕ := 4 + sizeofMsgContext
abbrev sizeofMsgLMTData : ℕ := 4 + 4 + 4 + 4

abbrev offFromAddr : ℕ := 4
abbrev offProtocolType : ℕ := offFromAddr + sizeofSockAddrIn
abbrev offMsgContext : ℕ := offProtocolType + 4
abbrev sizeofMsgSt : ℕ := offMsgContext + max sizeofMsgAddr sizeofMsgLMTData

/-- `m_msgContext.m_chMsg.m_msgContext`, past the size field of `MsgAddr`. -/
abbrev offChat : ℕ := offMsgContext + 4
abbrev offMsgType : ℕ := offChat + 4
abbrev offUserName : ℕ := offMsgType + 4
abbrev offMsgText : ℕ := offUserName + usernameMaxLength
abbrev offUserAddr : ℕ := offUserName + usernameMaxLength

attribute [simp] usernameMaxLength msgPacketMaxLength sizeofSockAddrIn sizeofMsgContext
  sizeofMsgContextUpdateDown sizeofMsgAddr sizeofMsgLMTData offFromAddr offProtocolType
  offMsgContext sizeofMsgSt offChat offMsgType offUserName offMsgText offUserAddr

def SockAddrIn.encode (a : SockAddrIn) : Bytes :=
  leBytes 2 a.family.toNat ++ leBytes 2 a.port.toNat ++ leBytes 4 a.addr.toNat ++
    leBytes 8 a.zero.toNat

def SockAddrIn.decode (b : Bytes) : SockAddrIn where
  family := UInt16.ofNat (leNat (field b 0 2))
  port := UInt16.ofNat (leNat (field b 2 2))
  addr := UInt32.ofNat (leNat (field b 4 4))
  zero := UInt64.ofNat (leNat (field b 8 8))

def msgISize (b : Bytes) : ℕ := leNat (field b 0 4)

def msgFromAddr (b : Bytes) : SockAddrIn :=
  SockAddrIn.decode (field b offFromAddr sizeofSockAddrIn)

def msgProtocolType (b : Bytes) : ProtocolType :=
  ProtocolType.ofCode (leNat (field b offProtocolType 4))

def msgMsgType (b : Bytes) : MsgType := MsgType.ofCode (leNat (field b offMsgType 4))

/-- `m_msgUserName` read as a C string: up to its terminator, wherever that is. -/
def msgUserName (b : Bytes) : Bytes := cstr b offUserName

def msgUserAddr (b : Bytes) : SockAddrIn :=
  SockAddrIn.decode (field b offUserAddr sizeofSockAddrIn)

def serverName : Bytes := [0x73, 0x65, 0x72, 0x76, 0x65, 0x72]

def errorName : Bytes := [0x65, 0x72, 0x72, 0x6f, 0x72]

def clientInitName : Bytes :=
  [0x63, 0x6c, 0x69, 0x65, 0x6e, 0x74, 0x5f, 0x69, 0x6e, 0x69, 0x74]

@[simp] theorem length_serverName : serverName.length = 6 := rfl

@[simp] theorem length_errorName : errorName.length = 5 := rfl

@[ext] structure UserName where
  bytes : Bytes
  noNul : (0 : UInt8) ∉ bytes
  fits : bytes.length < usernameMaxLength
  deriving DecidableEq

@[simp] theorem SockAddrIn.length_encode (a : SockAddrIn) : a.encode.length = 16 := by
  simp [SockAddrIn.encode]

theorem SockAddrIn.decode_encode (a : SockAddrIn) : decode a.encode = a := by
  have h1 : field a.encode 0 2 = leBytes 2 a.family.toNat := by
    rw [encode, field_append_left (by simp), field_append_left (by simp),
      field_append_left (by simp), field_leBytes]
  have h2 : field a.encode 2 2 = leBytes 2 a.port.toNat := by
    rw [encode, field_append_left (by simp), field_append_left (by simp),
      field_append_right (k := 0) _ _ (by simp), field_leBytes]
  have h3 : field a.encode 4 4 = leBytes 4 a.addr.toNat := by
    rw [encode, field_append_left (by simp), field_append_right (k := 0) _ _ (by simp),
      field_leBytes]
  have h4 : field a.encode 8 8 = leBytes 8 a.zero.toNat := by
    rw [encode, field_append_right (k := 0) _ _ (by simp), field_leBytes]
  have b1 : a.family.toNat < 256 ^ 2 := a.family.toNat_lt
  have b2 : a.port.toNat < 256 ^ 2 := a.port.toNat_lt
  have b3 : a.addr.toNat < 256 ^ 4 := a.addr.toNat_lt
  have b4 : a.zero.toNat < 256 ^ 8 := a.zero.toNat_lt
  ext1 <;> simp only [decode, h1, h2, h3, h4, leNat_leBytes_of_lt b1, leNat_leBytes_of_lt b2,
    leNat_leBytes_of_lt b3, leNat_leBytes_of_lt b4, UInt16.ofNat_toNat, UInt32.ofNat_toNat,
    UInt64.ofNat_toNat]

end Hatch.Net
