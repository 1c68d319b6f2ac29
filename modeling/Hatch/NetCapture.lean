import Hatch.ByteLayout
import Mathlib.Data.Nat.Digits.Defs

/-!
# What the packet capture writes

`procPacket` lays fixed structures over a frame and formats up to three inserts. A statement
is kept as its table and its values. The database puts the values into the columns of
`create_tbl.sql` in order and null into the rest, so the time goes to the column of the frame's
type and the column of the time stays null.
-/

namespace Hatch.NetCapture

open ByteLayout

abbrev Text := List Char

inductive Table
  | tblMacPacket | tblIpPacket | tblTcpPacket
  deriving DecidableEq, Repr

/-- A value of a statement: a quoted text or `now()`. -/
inductive Value
  | quoted (t : Text)
  | now
  deriving DecidableEq, Repr

/-- `insert into table values(id, values)`, where `%u` prints the id. -/
structure Insert where
  table : Table
  id : BitVec 32
  values : List Value
  deriving DecidableEq, Repr

section Formats

def decimal (n : ℕ) : Text := Nat.toDigits 10 n

def hex2 (b : UInt8) : Text :=
  [(Nat.digitChar (b.toNat / 16)).toUpper, (Nat.digitChar (b.toNat % 16)).toUpper]

def macText (addr : Bytes) : Text := [':'].intercalate (addr.map hex2)

def ipText (addr : Bytes) : Text := ['.'].intercalate (addr.map fun b => decimal b.toNat)

end Formats

section Structures

abbrev sizeofMacFrmHdr : ℕ := 6 + 6 + 2
abbrev sizeofIpHdr : ℕ := 1 + 1 + 2 + 2 + 2 + 1 + 1 + 2 + 4 + 4

def destAddr (buf : Bytes) : Bytes := field buf 0 6

def srcAddr (buf : Bytes) : Bytes := field buf 6 6

def ipProtocol (buf : Bytes) : ℕ := leNat (field buf (sizeofMacFrmHdr + 9) 1)

def ipSrc (buf : Bytes) : Bytes := field buf (sizeofMacFrmHdr + 12) 4

def ipDest (buf : Bytes) : Bytes := field buf (sizeofMacFrmHdr + 16) 4

/-- `udp_hdr->s_port` on a little-endian machine, behind an IP header without options. -/
def sPort (buf : Bytes) : ℕ := leNat (field buf (sizeofMacFrmHdr + sizeofIpHdr) 2)

def dPort (buf : Bytes) : ℕ := leNat (field buf (sizeofMacFrmHdr + sizeofIpHdr + 2) 2)

end Structures

abbrev ipprotoTcp : ℕ := 6
abbrev ipprotoUdp : ℕ := 17

def protocolName (protocol : ℕ) : Text :=
  if protocol = 1 then ['I', 'C', 'M', 'P']
  else if protocol = 2 then ['I', 'G', 'M', 'P']
  else if protocol = 4 then ['I', 'P', 'I', 'P']
  else if protocol = ipprotoTcp then ['T', 'C', 'P']
  else if protocol = ipprotoUdp then ['U', 'D', 'P']
  else if protocol = 255 then ['R', 'A', 'W']
  else ['U', 'n', 'k', 'n', 'o', 'w', 'n']

section Statements

variable (id : BitVec 64) (buf : Bytes)

def macInsert : Insert where
  table := .tblMacPacket
  id := id.setWidth 32
  values := [.quoted (macText (srcAddr buf)), .quoted (macText (destAddr buf)), .now]

def ipInsert : Insert where
  table := .tblIpPacket
  id := id.setWidth 32
  values := [.quoted (protocolName (ipProtocol buf)), .quoted (ipText (ipDest buf)),
    .quoted (ipText (ipSrc buf))]

def tcpInsert : Insert where
  table := .tblTcpPacket
  id := id.setWidth 32
  values := [.quoted (decimal (dPort buf)), .quoted (decimal (sPort buf))]

/-- The statements of `procPacket` for a frame, where `id` is the counter after `++id`. -/
def procPacket : List Insert :=
  macInsert id buf :: ipInsert id buf ::
    if ipProtocol buf = ipprotoTcp ∨ ipProtocol buf = ipprotoUdp then [tcpInsert id buf] else []

end Statements

inductive ColumnType
  | bigint | varchar | timestamp

/-- `tbl_mac_packet` has id, srcmac, desmac, type and capturetime, `tbl_ip_packet` id, protocol,
desip and srcip, `tbl_tcp_packet` id, dport and sport. -/
def Table.columns : Table → List ColumnType
  | tblMacPacket => [.bigint, .varchar, .varchar, .varchar, .timestamp]
  | tblIpPacket => [.bigint, .varchar, .varchar, .varchar]
  | tblTcpPacket => [.bigint, .varchar, .varchar]

/-- The content of a column, where `τ` is the type of the times. -/
inductive Cell (τ : Type)
  | int (n : ℕ)
  | text (t : Text)
  | time (t : τ)
  | null

section Rows

variable {τ : Type} (clock : τ) (timeText : τ → Text)

/-- A value in a column; a time in a column of texts is stored as its text. -/
def Value.cell : ColumnType → Value → Option (Cell τ)
  | .varchar, .quoted t => some (.text t)
  | .varchar, .now => some (.text (timeText clock))
  | .timestamp, .now => some (.time clock)
  | _, _ => none

/-- The values go to the first columns and the other columns are null. -/
def cells : List ColumnType → List Value → Option (List (Cell τ))
  | columns, [] => some (columns.map fun _ => .null)
  | [], _ :: _ => none
  | c :: columns, v :: values => do
      let cell ← v.cell clock timeText c
      let rest ← cells columns values
      return cell :: rest

def Insert.row (s : Insert) : Option (List (Cell τ)) := do
  let rest ← cells clock timeText s.table.columns.tail s.values
  return .int s.id.toNat :: rest

end Rows

def beNat (b : Bytes) : ℕ := leNat b.reverse

def headerWords (buf : Bytes) : ℕ := leNat (field buf sizeofMacFrmHdr 1) % 16

/-- A captured frame with an IP header of any legal length and the ports of TCP or UDP. -/
structure Frame where
  bytes : Bytes
  long : 46 ≤ bytes.length
  version : leNat (field bytes sizeofMacFrmHdr 1) / 16 = 4
  legal : 5 ≤ headerWords bytes
  transport : ipProtocol bytes = ipprotoTcp ∨ ipProtocol bytes = ipprotoUdp
  whole : sizeofMacFrmHdr + 4 * headerWords bytes + 4 ≤ bytes.length

namespace Frame

variable (f : Frame)

def etherType : ℕ := beNat (field f.bytes 12 2)

def transportOffset : ℕ := sizeofMacFrmHdr + 4 * headerWords f.bytes

def sourcePort : ℕ := beNat (field f.bytes f.transportOffset 2)

def destPort : ℕ := beNat (field f.bytes (f.transportOffset + 2) 2)

def transportName : Text :=
  if ipProtocol f.bytes = ipprotoTcp then ['T', 'C', 'P'] else ['U', 'D', 'P']

end Frame

section Described

variable {τ : Type} (clock : τ) (timeText : τ → Text) (typeText : ℕ → Text) (id : BitVec 64)
  (f : Frame)

/-- The rows that describe a frame, whatever the text of a type is. -/
def macRow : List (Cell τ) :=
  [.int (id.setWidth 32).toNat, .text (macText (srcAddr f.bytes)),
    .text (macText (destAddr f.bytes)), .text (typeText f.etherType), .time clock]

def ipRow : List (Cell τ) :=
  [.int (id.setWidth 32).toNat, .text f.transportName, .text (ipText (ipDest f.bytes)),
    .text (ipText (ipSrc f.bytes))]

def tcpRow : List (Cell τ) :=
  [.int (id.setWidth 32).toNat, .text (decimal f.destPort), .text (decimal f.sourcePort)]

/-- The statements of `procPacket` add the rows that describe the frame. -/
def Describes : Prop :=
  (procPacket id f.bytes).map (Insert.row clock timeText) =
    [some (macRow clock typeText id f), some (ipRow id f), some (tcpRow id f)]

end Described

section Actual

variable {τ : Type} (clock : τ) (timeText : τ → Text) (id : BitVec 64) (f : Frame)

/-- The time is where the type should be. -/
theorem row_macInsert : (macInsert id f.bytes).row clock timeText =
    some [.int (id.setWidth 32).toNat, .text (macText (srcAddr f.bytes)),
      .text (macText (destAddr f.bytes)), .text (timeText clock), .null] := rfl

theorem protocolName_frame : protocolName (ipProtocol f.bytes) = f.transportName := by
  rcases f.transport with h | h
  · rw [Frame.transportName, h]
    rfl
  · rw [Frame.transportName, h]
    rfl

theorem row_ipInsert : (ipInsert id f.bytes).row clock timeText = some (ipRow id f) := by
  rw [ipRow, ← protocolName_frame]
  rfl

theorem row_tcpInsert : (tcpInsert id f.bytes).row clock timeText =
    some [.int (id.setWidth 32).toNat, .text (decimal (dPort f.bytes)),
      .text (decimal (sPort f.bytes))] := rfl

theorem procPacket_frame : procPacket id f.bytes =
    [macInsert id f.bytes, ipInsert id f.bytes, tcpInsert id f.bytes] := by
  rw [procPacket, if_pos f.transport]

theorem decimal_inj {m n : ℕ} (h : decimal m = decimal n) : m = n := by
  have hm : Nat.ofDigitChars 10 (decimal m) 0 = m := Nat.ofDigitChars_toDigits (by decide) le_rfl
  have hn : Nat.ofDigitChars 10 (decimal n) 0 = n := Nat.ofDigitChars_toDigits (by decide) le_rfl
  rw [← hm, h, hn]

theorem leNat_eq_beNat_iff {b : Bytes} (h : b.length = 2) : leNat b = beNat b ↔ b.reverse = b := by
  match b, h with
  | [x, y], _ =>
      have hx := x.toNat_lt
      have hy := y.toNat_lt
      change x.toNat + 256 * (y.toNat + 256 * 0) = y.toNat + 256 * (x.toNat + 256 * 0) ↔
        [y, x] = [x, y]
      constructor
      · intro hle
        obtain rfl : x = y := UInt8.toNat_inj.mp (by omega)
        rfl
      · intro hrev
        obtain rfl : y = x := (List.cons.inj hrev).1
        rfl

/-- Without options in the IP header the ports are right just if each is the same number in
both byte orders. -/
theorem row_tcpInsert_eq_iff (h : headerWords f.bytes = 5) :
    (tcpInsert id f.bytes).row clock timeText = some (tcpRow id f) ↔
      (field f.bytes 36 2).reverse = field f.bytes 36 2 ∧
        (field f.bytes 34 2).reverse = field f.bytes 34 2 := by
  have hlen := f.long
  have hoff : f.transportOffset = 34 := by rw [Frame.transportOffset, h]
  have hdest : f.destPort = beNat (field f.bytes 36 2) := by rw [Frame.destPort, hoff]
  have hsource : f.sourcePort = beNat (field f.bytes 34 2) := by rw [Frame.sourcePort, hoff]
  rw [← leNat_eq_beNat_iff (length_field (by omega)),
    ← leNat_eq_beNat_iff (length_field (by omega)), ← hdest, ← hsource, row_tcpInsert, tcpRow]
  constructor
  · intro hrow
    have hcells := (List.cons.inj (Option.some.inj hrow)).2
    obtain ⟨hd, hs⟩ := List.cons.inj hcells
    exact ⟨decimal_inj (Cell.text.inj hd), decimal_inj (Cell.text.inj (List.cons.inj hs).1)⟩
  · rintro ⟨hd, hs⟩
    rw [← hd, ← hs]
    rfl

/-- The column of the capture time is null. -/
theorem row_macInsert_ne (typeText : ℕ → Text) :
    (macInsert id f.bytes).row clock timeText ≠ some (macRow clock typeText id f) := by
  intro h
  have hcells := congrArg (fun r => r.map fun row => row[4]?) h
  cases hcells

end Actual

/-- The rows describe no frame: the time stands in the column of the type, and the column of
the capture time is null. -/
theorem procPacket_describes_none {τ : Type} (clock : τ) (timeText : τ → Text)
    (typeText : ℕ → Text) (id : BitVec 64) (f : Frame) :
    ¬ Describes clock timeText typeText id f := by
  intro h
  rw [Describes, procPacket_frame] at h
  exact row_macInsert_ne clock timeText id f typeText (List.cons.inj h).1

/-- A TCP segment from port 80 to port 80 between two hosts, without options. -/
def sampleFrame : Frame where
  bytes := [1, 2, 3, 4, 5, 6, 7, 8, 9, 10, 11, 12, 8, 0, 0x45, 0, 0, 32, 0, 0, 0, 0, 64, 6, 0, 0,
    10, 0, 0, 1, 10, 0, 0, 2, 0, 80, 0, 80, 0, 0, 0, 0, 0, 0, 0, 0]
  long := by decide
  version := by decide
  legal := by decide
  transport := by decide
  whole := by decide

/-- The row of the frame has its time as a text in the fourth column and null in the fifth, and
port 80 is stored as 20480. -/
theorem procPacket_sampleFrame :
    (procPacket 1 sampleFrame.bytes).map (Insert.row () fun _ => ['t']) =
      [some [.int 1, .text (macText [7, 8, 9, 10, 11, 12]), .text (macText [1, 2, 3, 4, 5, 6]),
          .text ['t'], .null],
        some [.int 1, .text ['T', 'C', 'P'], .text (ipText [10, 0, 0, 2]),
          .text (ipText [10, 0, 0, 1])],
        some [.int 1, .text (decimal 20480), .text (decimal 20480)]] ∧
    ¬ Describes () (fun _ => ['t']) decimal 1 sampleFrame := by
  refine ⟨rfl, fun h => ?_⟩
  rw [Describes, procPacket_frame] at h
  exact row_macInsert_ne () _ 1 sampleFrame decimal (List.cons.inj h).1

end Hatch.NetCapture
