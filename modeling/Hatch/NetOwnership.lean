import Hatch.NetRoster

/-!
# Ownership of the received buffer

The received buffer is a token held by the handler, by the send queue or by nobody
once it is disposed of. A message is handled safely when the handler no longer
holds the token at the end and never used it after giving it away. The exits that
are safe are characterised by the message, the user list and the send queue.
-/

namespace Hatch.Net

open ByteLayout FaultProgram Prog

/-- The token is disposed of or queued, and was not used after that. -/
def TokenSafe (o : Owner) (misuse : Bool) : Prop :=
  (o = .disposed ∨ o = .sendQueue) ∧ misuse = false

/-- Messages after which the server has given its token away properly. -/
def ServerKeepsToken (b : Bytes) (l : List UserInfo) (q : ℕ) : Prop :=
  IsChat b .login ∧ (msgUserName b ∈ names l ↔ q < netMessageListMaxLength) ∨
  IsChat b .update ∧ q < netMessageListMaxLength ∨
  IsChat b .logout

def ClientKeepsToken (b : Bytes) (l : List UserInfo) (q : ℕ) : Prop :=
  IsChat b .text ∨
  IsChat b .update ∧ (∀ own, l[1]? = some own → own.Active → msgUserName b ∉ names l ∧
    (msgUserName b = errorName ∨ q < netMessageListMaxLength)) ∨
  IsChat b .backSyn ∧ msgUserName b ∈ names l ∨
  IsChat b .logout

theorem tokenSafe_pushedOwner (q : ℕ) :
    TokenSafe (pushedOwner q) false ↔ q < netMessageListMaxLength := by
  unfold TokenSafe pushedOwner
  split <;> simp_all

theorem tokenSafe_disposed : TokenSafe .disposed false := ⟨.inl rfl, rfl⟩

theorem not_tokenSafe_handler (m : Bool) : ¬ TokenSafe .handler m := by
  simp [TokenSafe]

section Effect

variable {b : Bytes} {l l' : List UserInfo} {k k' : CriticalSection} {q : ℕ} {o : Owner} {m : Bool}

theorem serverKeepsToken_login (hc : IsChat b .login) :
    ServerKeepsToken b l q ↔ (msgUserName b ∈ names l ↔ q < netMessageListMaxLength) := by
  simp [ServerKeepsToken, IsChat, hc.1, hc.2]

theorem serverKeepsToken_update (hc : IsChat b .update) :
    ServerKeepsToken b l q ↔ q < netMessageListMaxLength := by
  simp [ServerKeepsToken, IsChat, hc.1, hc.2]

theorem ServerEffect.tokenSafe_iff (h : ServerEffect b l k q l' k' o m) :
    TokenSafe o m ↔ ServerKeepsToken b l q := by
  cases h with
  | ignored hc =>
      refine iff_of_false (not_tokenSafe_handler _) ?_
      rintro (⟨hl, -⟩ | ⟨hu, -⟩ | ho)
      · exact hc.1 hl
      · exact hc.2.1 hu
      · exact hc.2.2 ho
  | loginTaken hc hn => rw [tokenSafe_pushedOwner, serverKeepsToken_login hc, iff_true_left hn]
  | loginAdded hc hn hq =>
      -- the reply was read again after it had been queued
      rw [serverKeepsToken_login hc]
      exact iff_of_false (fun h => Bool.noConfusion h.2) (fun h => hn (h.mpr hq))
  | loginFull hc hn hq =>
      rw [serverKeepsToken_login hc]
      exact iff_of_true tokenSafe_disposed (iff_of_false hn hq)
  | updateKnown hc hn => rw [tokenSafe_pushedOwner, serverKeepsToken_update hc]
  | updateUnknown hc hn => rw [tokenSafe_pushedOwner, serverKeepsToken_update hc]
  | logoutKnown hc hn hl => exact iff_of_true tokenSafe_disposed (.inr (.inr hc))
  | logoutUnknown hc hn => exact iff_of_true tokenSafe_disposed (.inr (.inr hc))

theorem clientKeepsToken_update {own : UserInfo} (hc : IsChat b .update) (hi : l[1]? = some own) :
    ClientKeepsToken b l q ↔ (own.Active → msgUserName b ∉ names l ∧
      (msgUserName b = errorName ∨ q < netMessageListMaxLength)) := by
  simp [ClientKeepsToken, IsChat, hc.1, hc.2, hi]

theorem clientKeepsToken_backSyn (hc : IsChat b .backSyn) :
    ClientKeepsToken b l q ↔ msgUserName b ∈ names l := by
  simp [ClientKeepsToken, IsChat, hc.1, hc.2]

theorem UserInfo.not_active_of_login {u : UserInfo} (h : u.status = some .login) : ¬ u.Active := by
  simp [UserInfo.Active, h]

theorem UserInfo.not_active_of_idle {u : UserInfo} (h : u.status = some .null ∨ u.status = none) :
    ¬ u.Active := by
  rcases h with h | h <;> simp [UserInfo.Active, h]

theorem ClientEffect.tokenSafe_iff (h : ClientEffect b l k q l' k' o) :
    TokenSafe o false ↔ ClientKeepsToken b l q := by
  cases h with
  | ignored hc =>
      refine iff_of_false (not_tokenSafe_handler _) ?_
      rintro (ht | ⟨hu, -⟩ | ⟨hb, -⟩ | ho)
      · exact hc.2.2.1 ht
      · exact hc.2.1 hu
      · exact hc.2.2.2.1 hb
      · exact hc.2.2.2.2 ho
  | login hc own hi st =>
      refine iff_of_false (not_tokenSafe_handler _) ?_
      simp [ClientKeepsToken, IsChat, hc.1, hc.2]
  | textUnknown hc hn => exact iff_of_true tokenSafe_disposed (.inl hc)
  | textKnown hc hn => exact iff_of_true tokenSafe_disposed (.inl hc)
  | textRaised hc hn i u hi => exact iff_of_true tokenSafe_disposed (.inl hc)
  | updateOwn hc own hi hs st =>
      rw [clientKeepsToken_update hc hi]
      exact iff_of_true tokenSafe_disposed (fun ha => absurd ha (UserInfo.not_active_of_login hs))
  | updateIdle hc own hi hs =>
      rw [clientKeepsToken_update hc hi]
      exact iff_of_true tokenSafe_disposed (fun ha => absurd ha (UserInfo.not_active_of_idle hs))
  | updateKnown hc own hi hs hn =>
      rw [clientKeepsToken_update hc hi]
      exact iff_of_false (not_tokenSafe_handler _) (fun h => (h hs).1 hn)
  | updateError hc own hi hs hn he =>
      rw [clientKeepsToken_update hc hi]
      exact iff_of_true tokenSafe_disposed (fun _ => ⟨hn, .inl he⟩)
  | updateAdded hc own hi hs hn he =>
      rw [clientKeepsToken_update hc hi, tokenSafe_pushedOwner]
      exact ⟨fun hq _ => ⟨hn, .inr hq⟩, fun h => (h hs).2.resolve_left he⟩
  | backSynKnown hc hn =>
      rw [clientKeepsToken_backSyn hc]
      exact iff_of_true tokenSafe_disposed hn
  | backSynAdded hc hn =>
      rw [clientKeepsToken_backSyn hc]
      exact iff_of_false (not_tokenSafe_handler _) hn
  | logoutUnknown hc hn => exact iff_of_true tokenSafe_disposed (.inr (.inr (.inr hc)))
  | logoutOwn hc hn own hi he => exact iff_of_true tokenSafe_disposed (.inr (.inr (.inr hc)))
  | logoutOther hc hn own hi he => exact iff_of_true tokenSafe_disposed (.inr (.inr (.inr hc)))

end Effect

/-- The handler of a chat message of type `t` on the server returns: it finds in the buffer what it
reads and writes there, and a group send has the entry of the server to start behind. -/
def ServerReturns (b : Bytes) (l : List UserInfo) : MsgType → Prop
  | .login => (Readable b ∧ (msgUserName b).length < usernameMaxLength) ∧
      if msgUserName b ∈ names l then 42 ≤ b.length else 43 ≤ b.length
  | .update => Comparable (names l) b ∧ (msgUserName b ∉ names l → 42 ≤ b.length)
  | .logout => Comparable (names l) b ∧ (msgUserName b ∈ names l →
      msgISize b ≤ b.length ∧ eraseUser (msgUserName b) l ≠ [] ∧
        ((eraseUser (msgUserName b) l).drop 1 = [] ∨ Groupable b))
  | _ => True

def ClientReturns (b : Bytes) (l : List UserInfo) : MsgType → Prop
  | .login => l[1]?.isSome ∧ Comparable [serverName] b
  | .update => ∃ own, l[1]? = some own ∧
      (own.status = some .login → Comparable [own.name] b) ∧
      (own.Active → Comparable (names l) b ∧ (msgUserName b ∉ names l →
        Comparable [errorName] b ∧ (msgUserName b ≠ errorName →
          offUserAddr + sizeofSockAddrIn ≤ b.length ∧
            (msgUserName b).length < usernameMaxLength ∧ own.name.length < usernameMaxLength)))
  | .text => ∃ own, l[1]? = some own ∧ Comparable (names l) b ∧
      if msgUserName b ∈ names l then
        if msgUserName b = own.name then l.drop 2 = [] ∨ Groupable b
        else ∀ u, l[userIndex (msgUserName b) l]? = some u → u.Active →
          (0 : UInt8) ∈ b.drop offMsgText
      else Readable b ∧ (msgUserName b).length < usernameMaxLength ∧ serverName ∈ names l
  | .backSyn => Comparable (names l) b ∧ (msgUserName b ∉ names l →
      offUserAddr + sizeofSockAddrIn ≤ b.length ∧ (msgUserName b).length < usernameMaxLength)
  | .logout => Comparable (names l) b ∧ (msgUserName b ∈ names l → l[1]?.isSome)
  | _ => True

/-- `hatchMsgProc` finds the types of the message, and the handler it calls meets `R`. -/
def Returns (b : Bytes) (R : MsgType → Prop) : Prop :=
  offProtocolType + 4 ≤ b.length ∧
    (msgProtocolType b = .chat → offMsgType + 4 ≤ b.length ∧ R (msgMsgType b))

section Returns

variable {s : Process}

theorem exists_entry {n : Bytes} {l : List UserInfo} (h : n ∈ names l) :
    ∃ u, l[userIndex n l]? = some u :=
  ⟨_, List.getElem?_eq_getElem (userIndex_lt_iff.mpr h)⟩

theorem getElem?_userIndex_of_notMem {n : Bytes} {l : List UserInfo} (h : n ∉ names l) :
    l[userIndex n l]? = none :=
  List.getElem?_eq_none (Nat.le_of_not_lt fun hlt => h (userIndex_lt_iff.mp hlt))

theorem server_returns_iff (ho : s.owner = .handler) (t : MsgType) :
    wp (dispatchChat serverProtocol .received t) False (fun _ _ => True) s ↔
      ServerReturns s.msg s.userList t := by
  cases t with
  | login =>
      change wp (Server.hatchMsgLogin .received) _ _ _ ↔ _
      rw [Server.wp_hatchMsgLogin ho]
      simp [ServerReturns]
  | update =>
      change wp (Server.hatchMsgUpdate .received) _ _ _ ↔ _
      rw [Server.wp_hatchMsgUpdate ho]
      simp [ServerReturns]
  | logout =>
      change wp (Server.hatchMsgLogout .received) _ _ _ ↔ _
      rw [Server.wp_hatchMsgLogout ho]
      simp [ServerReturns]
  | _ => exact iff_of_true trivial trivial

theorem client_returns_update (ho : s.owner = .handler) :
    wp (Client.hatchMsgUpdate .received) False (fun _ _ => True) s ↔
      ClientReturns s.msg s.userList .update := by
  cases hi : s.userList[1]? with
  | none => simp [Client.wp_hatchMsgUpdate_none hi, ClientReturns, hi]
  | some own =>
      by_cases ha : own.Active
      · rw [Client.wp_hatchMsgUpdate_active ho hi ha, Client.wp_hatchMsgUpdateOther ho hi]
        have hl : own.status ≠ some .login := fun h => UserInfo.not_active_of_login h ha
        simp [ClientReturns, hi, ha, hl]
      · by_cases hl : own.status = some .login
        · rw [Client.wp_hatchMsgUpdate_login ho hi hl]
          simp [ClientReturns, hi, ha, hl]
        · rw [Client.wp_hatchMsgUpdate_idle ho hi (UserInfo.idle_of_not_active ha hl)]
          simp [ClientReturns, hi, ha, hl]

theorem client_returns_text (ho : s.owner = .handler) :
    wp (Client.hatchMsgText .received) False (fun _ _ => True) s ↔
      ClientReturns s.msg s.userList .text := by
  cases hi : s.userList[1]? with
  | none => simp [Client.wp_hatchMsgText_none hi, ClientReturns, hi]
  | some own =>
      rw [Client.wp_hatchMsgText ho hi, Client.wp_hatchMsgUpdateUp ho]
      by_cases hm : msgUserName s.msg ∈ names s.userList
      · obtain ⟨u, hu⟩ := exists_entry hm
        simp [ClientReturns, UserInfo.Active, hi, hm, hu, or_left_comm]
      · by_cases hs : serverName ∈ names s.userList
        · obtain ⟨server, hu⟩ := exists_entry hs
          simp [ClientReturns, hi, hm, hs, hu]
        · simp [ClientReturns, hi, hm, hs, getElem?_userIndex_of_notMem hs]

theorem client_returns_iff (ho : s.owner = .handler) (t : MsgType) :
    wp (dispatchChat clientProtocol .received t) False (fun _ _ => True) s ↔
      ClientReturns s.msg s.userList t := by
  cases t with
  | login =>
      change wp (Client.hatchMsgLogin .received) _ _ _ ↔ _
      cases hi : s.userList[1]? with
      | none => simp [Client.wp_hatchMsgLogin_none hi, ClientReturns, hi]
      | some own => simp [Client.wp_hatchMsgLogin ho hi, ClientReturns, hi]
  | update => exact client_returns_update ho
  | text => exact client_returns_text ho
  | backSyn =>
      change wp (Client.hatchMsgBackSyn .received) _ _ _ ↔ _
      rw [Client.wp_hatchMsgBackSyn ho]
      simp [ClientReturns]
  | logout =>
      change wp (Client.hatchMsgLogout .received) _ _ _ ↔ _
      cases hi : s.userList[1]? with
      | none => simp [Client.wp_hatchMsgLogout_none hi ho, ClientReturns, hi]
      | some own => simp [Client.wp_hatchMsgLogout ho hi, ClientReturns, hi]
  | _ => exact iff_of_true trivial trivial

theorem hatchMsgProc_returns_iff {P : Protocol} {b : Bytes} {R : MsgType → Prop}
    (h : ∀ t, wp (dispatchChat P .received t) False (fun _ _ => True) (s.received b) ↔ R t) :
    wp (hatchMsgProc P b) False (fun _ _ => True) s ↔ Returns b R := by
  rw [wp_hatchMsgProc]
  cases hp : msgProtocolType b with
  | chat => simp [Returns, hp, h]
  | _ => simp [Returns, hp]

end Returns

/-- A message is handled to the end with its buffer given away properly just if the handler
returns and the exit that the message takes is a proper one. -/
theorem token_safe_iff (b : Bytes) (s : Process) :
    ((∃ r t, hatchMsgProc serverProtocol b s = .ok (r, t) ∧ TokenSafe t.owner t.misuse) ↔
      Returns b (ServerReturns b s.userList) ∧
        ServerKeepsToken b s.userList s.sendList.sem) ∧
    ((∃ r t, hatchMsgProc clientProtocol b s = .ok (r, t) ∧ TokenSafe t.owner t.misuse) ↔
      Returns b (ClientReturns b s.userList) ∧
        ClientKeepsToken b s.userList s.sendList.sem) := by
  constructor
  · refine exists_run_and_iff (hatchMsgProc_returns_iff (server_returns_iff rfl)) fun r t h => ?_
    exact (wp_true_of_run h (wp_server_effect b s)).tokenSafe_iff
  · refine exists_run_and_iff (hatchMsgProc_returns_iff (client_returns_iff rfl)) fun r t h => ?_
    obtain ⟨he, hm⟩ := wp_true_of_run h (wp_client_effect b s)
    rw [hm]
    exact he.tokenSafe_iff

/-- The reply to the first Login of `bob` is read after it was queued, and a client
forgets the reply. -/
theorem login_token_unsafe :
    (messageStep serverProtocol (serverStart (fun _ => 0))
      (arrivingRequest .login bobName.bytes, .empty)).map (fun t => (t.owner, t.misuse)) =
      some (.sendQueue, true) ∧
    (messageStep clientProtocol
      (clientStart (fun _ => 0) (localSockAddr (fun _ => 0) clientEndpoint) bobName.bytes)
      (arrivingRequest .login serverName, .empty)).map (fun t => (t.owner, t.misuse)) =
      some (.handler, false) := by
  decide +kernel

end Hatch.Net
