import Hatch.NetOutcome

/-!
# Outcomes of well-formed messages

For each kind of complete message, the user list it leaves and the messages it
makes the handler send, in the order in which they are pushed.
-/

namespace Hatch.Net

open ByteLayout FaultProgram Prog

/-- What a handler leaves: the list, the messages it has sent and the end event. -/
structure Process.Leaves (s t : Process) (l : List UserInfo) (ms : List Bytes) (e : Bool) :
    Prop where
  userList : t.userList = l
  sendList : t.sendList = s.sendList.pushAll ms
  recvList : t.recvList = s.recvList
  runnerEnd : t.runnerEnd = e

section Dispatch

variable {E : Prop} {s : Process} {Q : ℤ → Process → Prop} {P : Protocol} {b n : Bytes}
  {ty : MsgType}

theorem wp_hatchMsgProc_carries (hc : Carries b ty n) :
    wp (hatchMsgProc P b) E Q s ↔ wp (dispatchChat P .received ty) E Q (s.received b) := by
  have hl : 69 ≤ b.length := hc.long
  have h24 : offProtocolType + 4 ≤ b.length := by
    simp only [offProtocolType, offFromAddr, sizeofSockAddrIn]
    omega
  have h36 : offMsgType + 4 ≤ b.length := by
    simp
    omega
  rw [wp_hatchMsgProc, if_pos h24, hc.protocolType, hc.msgType]
  simp only [if_pos h36]

end Dispatch

section Server

variable {s : Process} {b : Bytes} {n : UserName}

theorem server_login (hc : Carries b .login n.bytes) :
    wp (hatchMsgProc serverProtocol b) False (fun _ t =>
      n.bytes ∈ names s.userList ∧ s.Leaves t s.userList [rename b errorName] s.runnerEnd ∨
      n.bytes ∉ names s.userList ∧ s.Leaves t (s.userList ++ [loginUser b])
        (rename b serverName :: groupCopies (announcement s.junk b)
          ((s.userList ++ [loginUser b]).drop 1)) s.runnerEnd ∨
      ¬ s.sendList.sem < netMessageListMaxLength ∧
        s.Leaves t s.userList [rename b serverName] s.runnerEnd) s := by
  have hl : 69 ≤ b.length := hc.long
  have hn : (msgUserName b).length < usernameMaxLength := hc.name.symm ▸ n.fits
  rw [wp_hatchMsgProc_carries hc]
  change wp (Server.hatchMsgLogin .received) _ _ _
  rw [Server.wp_hatchMsgLogin rfl, ← hc.name]
  split_ifs with hr hm h42 h43 hq
  · exact .inl ⟨hm, rfl, rfl, rfl, rfl⟩
  · exact h42 (le_trans (by omega) hl)
  · exact .inr (.inl ⟨hm, rfl, rfl, rfl, rfl⟩)
  · exact .inr (.inr ⟨hq, rfl, rfl, rfl, rfl⟩)
  · exact h43 (le_trans (by omega) hl)
  · exact hr ⟨hc.readable, hn⟩

theorem server_logout (hc : Carries b .logout n.bytes)
    (hne : eraseUser n.bytes s.userList ≠ []) :
    wp (hatchMsgProc serverProtocol b) False (fun _ t =>
      n.bytes ∈ names s.userList ∧ s.Leaves t (eraseUser n.bytes s.userList)
        (b :: groupCopies b ((eraseUser n.bytes s.userList).drop 1)) s.runnerEnd ∨
      n.bytes ∉ names s.userList ∧ s.Leaves t s.userList [] s.runnerEnd) s := by
  have htake : b.take (msgISize b) = b := by rw [hc.size, List.take_length]
  rw [wp_hatchMsgProc_carries hc]
  change wp (Server.hatchMsgLogout .received) _ _ _
  rw [← hc.name] at hne ⊢
  rw [Server.wp_hatchMsgLogout rfl]
  split_ifs with hr hm hg
  · refine .inl ⟨hm, rfl, ?_, rfl, rfl⟩
    change (s.sendList.push (b.take (msgISize b))).2.pushAll _ = _
    rw [htake]
    rfl
  · exact hg ⟨hc.size.le, hne, .inr hc.groupable⟩
  · exact .inr ⟨hm, rfl, rfl, rfl, rfl⟩
  · exact hr (.inl hc.readable)

end Server

section Client

variable {s : Process} {b : Bytes} {n : Bytes} {own : UserInfo} {a : SockAddrIn}

theorem client_login (hi : s.userList[1]? = some own) (hc : Carries b .login n) :
    wp (hatchMsgProc clientProtocol b) False (fun _ t => s.Leaves t (s.userList.set 1 { own with
      status := some (if n = serverName then .login else .null) }) [] s.runnerEnd) s := by
  have hi' : (s.received b).userList[1]? = some own := hi
  rw [wp_hatchMsgProc_carries hc]
  change wp (Client.hatchMsgLogin .received) _ _ _
  rw [Client.wp_hatchMsgLogin rfl hi', ← hc.name]
  split
  · exact ⟨rfl, rfl, rfl, rfl⟩
  · rename_i hr
    exact hr (.inl hc.readable)

theorem client_update_login (hi : s.userList[1]? = some own) (hs : own.status = some .login)
    (hc : Carries b .update n) :
    wp (hatchMsgProc clientProtocol b) False (fun _ t => s.Leaves t (s.userList.set 1 { own with
      status := some (if own.name = n then .online else .null) }) [] s.runnerEnd) s := by
  have hi' : (s.received b).userList[1]? = some own := hi
  rw [wp_hatchMsgProc_carries hc]
  change wp (Client.hatchMsgUpdate .received) _ _ _
  rw [Client.wp_hatchMsgUpdate_login rfl hi' hs, ← hc.name]
  split
  · exact ⟨rfl, rfl, rfl, rfl⟩
  · rename_i hr
    exact hr (.inl hc.readable)

theorem client_update_null (hi : s.userList[1]? = some own) (hs : own.status = some .null)
    (hc : Carries b .update n) :
    wp (hatchMsgProc clientProtocol b) False (fun _ t => s.Leaves t s.userList [] s.runnerEnd)
      s := by
  have hi' : (s.received b).userList[1]? = some own := hi
  rw [wp_hatchMsgProc_carries hc]
  change wp (Client.hatchMsgUpdate .received) _ _ _
  rw [Client.wp_hatchMsgUpdate_idle rfl hi' (.inl hs)]
  exact ⟨rfl, rfl, rfl, rfl⟩

theorem client_update_online (hi : s.userList[1]? = some own) (hs : own.status = some .online)
    (ho : own.name.length < usernameMaxLength) (hc : CarriesAddr b .update n a)
    (hn : n ≠ errorName) (hl : n.length < usernameMaxLength) :
    wp (hatchMsgProc clientProtocol b) False (fun _ t =>
      n ∈ names s.userList ∧ s.Leaves t s.userList [] s.runnerEnd ∨
      n ∉ names s.userList ∧ s.Leaves t (s.userList ++ [announcedUser b])
        [backSynMsg b a (own.addr, own.port) own.name] s.runnerEnd) s := by
  have hi' : (s.received b).userList[1]? = some own := hi
  rw [wp_hatchMsgProc_carries hc.toCarries]
  change wp (Client.hatchMsgUpdate .received) _ _ _
  rw [← hc.name] at hn hl
  rw [Client.wp_hatchMsgUpdate_active rfl hi' (.inl hs), Client.wp_hatchMsgUpdateOther rfl hi',
    ← hc.name, ← hc.addr]
  split_ifs with hr hm hx he h84
  · exact .inl ⟨hm, rfl, rfl, rfl, rfl⟩
  · exact absurd he hn
  · exact .inr ⟨hm, rfl, rfl, rfl, rfl⟩
  · exact h84 ⟨hc.addrInside, hl, ho⟩
  · exact hx (.inl hc.readable)
  · exact hr (.inl hc.readable)

theorem client_backSyn (hc : CarriesAddr b .backSyn n a) (hl : n.length < usernameMaxLength) :
    wp (hatchMsgProc clientProtocol b) False (fun _ t =>
      n ∈ names s.userList ∧ s.Leaves t s.userList [] s.runnerEnd ∨
      n ∉ names s.userList ∧ s.Leaves t (s.userList ++ [announcedUser b]) [] s.runnerEnd) s := by
  rw [wp_hatchMsgProc_carries hc.toCarries]
  change wp (Client.hatchMsgBackSyn .received) _ _ _
  rw [← hc.name] at hl
  rw [Client.wp_hatchMsgBackSyn rfl, ← hc.name]
  split_ifs with hr hm h84
  · exact .inl ⟨hm, rfl, rfl, rfl, rfl⟩
  · exact .inr ⟨hm, rfl, rfl, rfl, rfl⟩
  · exact h84 ⟨hc.addrInside, hl⟩
  · exact hr (.inl hc.readable)

theorem client_logout (hi : s.userList[1]? = some own) (hc : Carries b .logout n) :
    wp (hatchMsgProc clientProtocol b) False (fun _ t =>
      n ∉ names s.userList ∧ s.Leaves t s.userList [] s.runnerEnd ∨
      own.name = n ∧ s.Leaves t (s.userList.set 1 { own with status := some .null }) [] true ∨
      own.name ≠ n ∧ s.Leaves t (eraseUser n s.userList) [] s.runnerEnd) s := by
  have hi' : (s.received b).userList[1]? = some own := hi
  rw [wp_hatchMsgProc_carries hc]
  change wp (Client.hatchMsgLogout .received) _ _ _
  rw [Client.wp_hatchMsgLogout rfl hi', ← hc.name]
  split_ifs with hr hm he
  · exact .inr (.inl ⟨he, rfl, rfl, rfl, rfl⟩)
  · exact .inr (.inr ⟨he, rfl, rfl, rfl, rfl⟩)
  · exact .inl ⟨hm, rfl, rfl, rfl, rfl⟩
  · exact hr (.inl hc.readable)

end Client

end Hatch.Net
