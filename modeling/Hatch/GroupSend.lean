import Mathlib.Data.List.Forall2
import Hatch.NetWire

/-!
# The group send

`hatchPushSendMsgGroup` walks the user list behind the entries of the server and of the process
itself, and pushes a copy of the message for each user left. The message it is given is freed.
-/

namespace Hatch.Net

open ByteLayout FaultProgram

/-- A message in memory: its `m_iSize` lies in its buffer and covers the header. -/
structure Message where
  buffer : Bytes
  groupable : Groupable buffer

def Message.bytes (m : Message) : Bytes := m.buffer.take (msgISize m.buffer)

/-- What the receiving thread builds is a message. -/
def Message.recv (sender : SockAddrIn) (d : Bytes) (h : d.length ≤ msgPacketMaxLength) :
    Message where
  buffer := recvMsg sender d
  groupable := by
    have hlen : (recvMsg sender d).length = d.length + 20 := length_recvMsg d
    have hsize : msgISize (recvMsg sender d) = (recvMsg sender d).length :=
      msgISize_recvMsg (by simp at h; omega)
    refine ⟨by omega, hsize.le, ?_⟩
    rw [hsize, hlen]
    simp

/-- What the program builds itself is one too. -/
def Carries.message {b : Bytes} {t : MsgType} {n : Bytes} (h : Carries b t n) : Message where
  buffer := b
  groupable := h.groupable

/-- Pointer `p` is to message `m`, which is still the caller's. -/
def PMsgSt.PointsTo (p : PMsgSt) (s : Process) (m : Message) : Prop :=
  p.content s = m.buffer ∧ (p = .received → s.owner = .handler)

/-- The message addressed to user `u`: other bytes than family, port and address are as before. -/
structure CopyFor (b : Bytes) (u : UserInfo) (copy : Bytes) : Prop where
  family : (msgFromAddr copy).family = afInet
  port : (msgFromAddr copy).port = u.port
  addr : (msgFromAddr copy).addr = u.addr
  length : copy.length = b.length
  rest : ∀ i, i < offFromAddr ∨ offFromAddr + 8 ≤ i → copy[i]? = b[i]?

theorem Message.length_bytes (m : Message) : offFromAddr + sizeofSockAddrIn ≤ m.bytes.length := by
  obtain ⟨-, hfits, hheader⟩ := m.groupable
  rw [bytes, List.length_take_of_le hfits]
  exact hheader

section Readdress

variable {b : Bytes} (h : offFromAddr + sizeofSockAddrIn ≤ b.length) (u : UserInfo)

include h

/-- The eight bytes of `sin_zero` go back where they were. -/
theorem readdress_eq_patch :
    readdress b u = patch b offFromAddr
      (leBytes 2 afInet.toNat ++ leBytes 2 u.port.toNat ++ leBytes 4 u.addr.toNat) := by
  have hzero : leBytes 8 (msgFromAddr b).zero.toNat = field b (offFromAddr + 8) 8 := by
    have hlen : (field b (offFromAddr + 8) 8).length = 8 := length_field (by simp at h ⊢; omega)
    have hlt : leNat (field b (offFromAddr + 8) 8) < 2 ^ 64 := by
      have := leNat_lt (field b (offFromAddr + 8) 8)
      rwa [hlen] at this
    have hback := leBytes_leNat (field b (offFromAddr + 8) 8)
    rw [hlen] at hback
    have hdecoded : (msgFromAddr b).zero = UInt64.ofNat (leNat (field b (offFromAddr + 8) 8)) := by
      rw [← field_field (l := sizeofSockAddrIn) (by simp)]
      rfl
    rw [hdecoded, UInt64.toNat_ofNat_of_lt' hlt, hback]
  rw [readdress, SockAddrIn.encode, hzero]
  exact patch_append_field (by simpa using h)

theorem copyFor_readdress : CopyFor b u (readdress b u) := by
  have haddr := msgFromAddr_readdress_of_le (b := b) (by simp at h ⊢; omega) u
  refine ⟨by rw [haddr], by rw [haddr], by rw [haddr], length_patch (by simpa using h), ?_⟩
  intro i hi
  rw [readdress_eq_patch h u]
  apply getElem?_patch_outside (by simp at h ⊢; omega)
  simpa using hi

end Readdress

/-- With room for all of them every message is taken. -/
theorem MsgQueue.pushAll_of_room {q : MsgQueue} {ms : List Bytes}
    (h : q.sem + ms.length ≤ netMessageListMaxLength) :
    q.pushAll ms = ⟨q.sem + ms.length, q.list ++ ms, q.refused⟩ := by
  have hroom : ms.length ≤ netMessageListMaxLength - q.sem := by omega
  rw [pushAll_eq, Nat.min_eq_right hroom, List.take_of_length_le hroom, Nat.sub_eq_zero_of_le hroom,
    Nat.add_zero]

/-- One run for both kinds of pointer. -/
theorem hatchPushSendMsgGroup_run (servicesType : ℕ) {p : PMsgSt} {m : Message} {s : Process}
    (hp : p.PointsTo s m) (hreserved : 1 + servicesType ≤ s.userList.length) :
    ∃ r t, hatchPushSendMsgGroup servicesType p s = .ok (r, t) ∧ r = 0 ∧
      t.sendList =
        s.sendList.pushAll (groupCopies m.buffer (s.userList.drop (1 + servicesType))) ∧
      t.userList = s.userList ∧ t.recvList = s.recvList ∧ t.tempList = s.tempList := by
  apply Prog.run_of_wp_false
  obtain ⟨hcontent, howner⟩ := hp
  cases p with
  | received =>
    change s.msg = m.buffer at hcontent
    rw [wp_hatchPushSendMsgGroup_received _ (howner rfl), if_pos hreserved, hcontent,
      if_pos (.inr m.groupable)]
    exact ⟨rfl, rfl, rfl, rfl, rfl⟩
  | fresh b =>
    change b = m.buffer at hcontent
    rw [wp_hatchPushSendMsgGroup_fresh, if_pos hreserved, hcontent, if_pos (.inr m.groupable)]
    exact ⟨rfl, rfl, rfl, rfl, rfl⟩

theorem forall₂_groupCopies (m : Message) (us : List UserInfo) :
    List.Forall₂ (CopyFor m.bytes) us (groupCopies m.buffer us) := by
  rw [groupCopies, List.forall₂_map_right_iff, List.forall₂_same]
  exact fun u _ => copyFor_readdress m.length_bytes u

/-- The group send appends one copy for each user behind the reserved entries, in the order of the
list. -/
theorem hatchPushSendMsgGroup_copies (servicesType : ℕ) (p : PMsgSt) (m : Message) (s : Process)
    (hp : p.PointsTo s m) (hreserved : 1 + servicesType ≤ s.userList.length)
    (hroom : s.sendList.sem + (s.userList.length - (1 + servicesType)) ≤
      netMessageListMaxLength) :
    ∃ copies t, hatchPushSendMsgGroup servicesType p s = .ok (0, t) ∧
      List.Forall₂ (CopyFor m.bytes) (s.userList.drop (1 + servicesType)) copies ∧
      t.sendList = ⟨s.sendList.sem + copies.length, s.sendList.list ++ copies,
        s.sendList.refused⟩ ∧
      t.userList = s.userList ∧ t.recvList = s.recvList ∧ t.tempList = s.tempList := by
  obtain ⟨r, t, hrun, rfl, hsend, hothers⟩ := hatchPushSendMsgGroup_run servicesType hp hreserved
  have hcopies := forall₂_groupCopies m (s.userList.drop (1 + servicesType))
  refine ⟨_, t, hrun, hcopies, ?_, hothers⟩
  rw [hsend]
  apply MsgQueue.pushAll_of_room
  rwa [← hcopies.length_eq, List.length_drop]

/-- A message from the network sent on by a server that knows two users. -/
theorem hatchPushSendMsgGroup_copies_two :
    ∃ copies t, hatchPushSendMsgGroup 0 .received
        { Process.fresh (fun _ => 0) with
          userList := [serverUser, { addr := 5, port := 6 }, { addr := 7, port := 8 }]
          msg := (Message.recv ⟨2, 1, 3, 0⟩ [4, 0, 0, 0] (by decide)).buffer
          owner := .handler } = .ok (0, t) ∧
      List.Forall₂ (CopyFor (Message.recv ⟨2, 1, 3, 0⟩ [4, 0, 0, 0] (by decide)).bytes)
        [{ addr := 5, port := 6 }, { addr := 7, port := 8 }] copies ∧
      t.sendList = ⟨0 + copies.length, [] ++ copies, 0⟩ ∧
      t.userList = [serverUser, { addr := 5, port := 6 }, { addr := 7, port := 8 }] ∧
      t.recvList = .empty ∧ t.tempList = .empty :=
  hatchPushSendMsgGroup_copies 0 .received (.recv ⟨2, 1, 3, 0⟩ [4, 0, 0, 0] (by decide)) _
    ⟨rfl, fun _ => rfl⟩ (by decide) (by decide)

end Hatch.Net
