import Hatch.NetOutcome

/-!
# What one message can do

`ServerEffect` and `ClientEffect` list the exits of `hatchMsgProc` with what each
does to the user list, to its critical section and to the received buffer. Every
message that is handled without a fault has one of these effects.
-/

namespace Hatch.Net

open ByteLayout FaultProgram Prog

def IsChat (b : Bytes) (t : MsgType) : Prop := msgProtocolType b = .chat ∧ msgMsgType b = t

instance (b : Bytes) (t : MsgType) : Decidable (IsChat b t) :=
  inferInstanceAs (Decidable (_ ∧ _))

theorem IsChat.unique {b : Bytes} {t t' : MsgType} (h : IsChat b t) (h' : IsChat b t') : t = t' :=
  h.2.symm.trans h'.2

/-- The holder of a buffer that was pushed when the send semaphore was at `q`. -/
def pushedOwner (q : ℕ) : Owner := if q < netMessageListMaxLength then .sendQueue else .handler

def UserInfo.Active (u : UserInfo) : Prop :=
  u.status = some .online ∨ u.status = some .hide ∨ u.status = some .busy

instance (u : UserInfo) : Decidable u.Active := inferInstanceAs (Decidable (_ ∨ _ ∨ _))

theorem UserInfo.idle_of_not_active {u : UserInfo} (ha : ¬ u.Active)
    (hl : u.status ≠ some .login) : u.status = some .null ∨ u.status = none := by
  unfold UserInfo.Active at ha
  rcases hs : u.status with _ | _ | _ | _ | _ | _ <;> simp_all

/-- List, lock, holder and misuse after message `b` on the server, from list `l`, lock
`k` and send semaphore `q`. -/
inductive ServerEffect (b : Bytes) (l : List UserInfo) (k : CriticalSection) (q : ℕ) :
    List UserInfo → CriticalSection → Owner → Bool → Prop
  | ignored (h : ¬ IsChat b .login ∧ ¬ IsChat b .update ∧ ¬ IsChat b .logout) :
      ServerEffect b l k q l k .handler false
  | loginTaken (h : IsChat b .login) (hn : msgUserName b ∈ names l) :
      ServerEffect b l k q l k.cycle (pushedOwner q) false
  | loginAdded (h : IsChat b .login) (hn : msgUserName b ∉ names l)
      (hq : q < netMessageListMaxLength) :
      ServerEffect b l k q (l ++ [loginUser b]) k.cycle .sendQueue true
  | loginFull (h : IsChat b .login) (hn : msgUserName b ∉ names l)
      (hq : ¬ q < netMessageListMaxLength) : ServerEffect b l k q l k.cycle .disposed false
  | updateKnown (h : IsChat b .update) (hn : msgUserName b ∈ names l) :
      ServerEffect b l k q l k.cycle.leave (pushedOwner q) false
  | updateUnknown (h : IsChat b .update) (hn : msgUserName b ∉ names l) :
      ServerEffect b l k q l k.cycle (pushedOwner q) false
  | logoutKnown (h : IsChat b .logout) (hn : msgUserName b ∈ names l)
      (hl : eraseUser (msgUserName b) l ≠ []) :
      ServerEffect b l k q (eraseUser (msgUserName b) l) k.cycle.leave .disposed false
  | logoutUnknown (h : IsChat b .logout) (hn : msgUserName b ∉ names l) :
      ServerEffect b l k q l k.cycle .disposed false

/-- List, lock and holder after message `b` on a client. -/
inductive ClientEffect (b : Bytes) (l : List UserInfo) (k : CriticalSection) (q : ℕ) :
    List UserInfo → CriticalSection → Owner → Prop
  | ignored (h : ¬ IsChat b .login ∧ ¬ IsChat b .update ∧ ¬ IsChat b .text ∧
        ¬ IsChat b .backSyn ∧ ¬ IsChat b .logout) :
      ClientEffect b l k q l k .handler
  | login (h : IsChat b .login) (own : UserInfo) (hi : l[1]? = some own) (st : UserStatus) :
      ClientEffect b l k q (l.set 1 { own with status := some st }) k.cycle .handler
  | textUnknown (h : IsChat b .text) (hn : msgUserName b ∉ names l) :
      ClientEffect b l k q l k.cycle .disposed
  | textKnown (h : IsChat b .text) (hn : msgUserName b ∈ names l) :
      ClientEffect b l k q l k.cycle.leave .disposed
  | textRaised (h : IsChat b .text) (hn : msgUserName b ∈ names l) (i : ℕ) (u : UserInfo)
      (hi : l[i]? = some u) :
      ClientEffect b l k q (l.set i { u with status := some .online }) k.cycle.leave .disposed
  | updateOwn (h : IsChat b .update) (own : UserInfo) (hi : l[1]? = some own)
      (hs : own.status = some .login) (st : UserStatus) :
      ClientEffect b l k q (l.set 1 { own with status := some st }) k.cycle .disposed
  | updateIdle (h : IsChat b .update) (own : UserInfo) (hi : l[1]? = some own)
      (hs : own.status = some .null ∨ own.status = none) :
      ClientEffect b l k q l k.cycle .disposed
  | updateKnown (h : IsChat b .update) (own : UserInfo) (hi : l[1]? = some own)
      (hs : own.Active) (hn : msgUserName b ∈ names l) :
      ClientEffect b l k q l k.cycle.leave .handler
  | updateError (h : IsChat b .update) (own : UserInfo) (hi : l[1]? = some own)
      (hs : own.Active) (hn : msgUserName b ∉ names l) (he : msgUserName b = errorName) :
      ClientEffect b l k q l k.cycle .disposed
  | updateAdded (h : IsChat b .update) (own : UserInfo) (hi : l[1]? = some own)
      (hs : own.Active) (hn : msgUserName b ∉ names l) (he : msgUserName b ≠ errorName) :
      ClientEffect b l k q (l ++ [announcedUser b]) k.cycle (pushedOwner q)
  | backSynKnown (h : IsChat b .backSyn) (hn : msgUserName b ∈ names l) :
      ClientEffect b l k q l k.cycle.leave .disposed
  | backSynAdded (h : IsChat b .backSyn) (hn : msgUserName b ∉ names l) :
      ClientEffect b l k q (l ++ [announcedUser b]) k.cycle .handler
  | logoutUnknown (h : IsChat b .logout) (hn : msgUserName b ∉ names l) :
      ClientEffect b l k q l k.cycle .disposed
  | logoutOwn (h : IsChat b .logout) (hn : msgUserName b ∈ names l) (own : UserInfo)
      (hi : l[1]? = some own) (he : own.name = msgUserName b) :
      ClientEffect b l k q (l.set 1 { own with status := some .null }) k.cycle.leave .disposed
  | logoutOther (h : IsChat b .logout) (hn : msgUserName b ∈ names l) (own : UserInfo)
      (hi : l[1]? = some own) (he : own.name ≠ msgUserName b) :
      ClientEffect b l k q (eraseUser (msgUserName b) l) k.cycle.leave .disposed

/-- A message is ignored, or it is a chat message and reaches a handler. -/
theorem wp_hatchMsgProc_true {P : Protocol} {b : Bytes} {s : Process} {Q : ℤ → Process → Prop}
    (hskip : msgProtocolType b ≠ .chat → ∀ r, Q r (s.received b))
    (hchat : msgProtocolType b = .chat →
      wp (dispatchChat P .received (msgMsgType b)) True Q (s.received b)) :
    wp (hatchMsgProc P b) True Q s := by
  rw [wp_hatchMsgProc]
  split
  · cases hp : msgProtocolType b with
    | chat =>
        simp only
        split
        · exact hchat hp
        · trivial
    | lmt => exact hskip (by simp [hp]) 0
    | null => exact hskip (by simp [hp]) (-1)
    | other k => exact hskip (by simp [hp]) (-1)
  · trivial

theorem wp_server_effect (b : Bytes) (s : Process) :
    wp (hatchMsgProc serverProtocol b) True
      (fun _ t => ServerEffect b s.userList s.userLock s.sendList.sem
        t.userList t.userLock t.owner t.misuse) s := by
  apply wp_hatchMsgProc_true
  · intro hp r
    exact .ignored ⟨fun h => hp h.1, fun h => hp h.1, fun h => hp h.1⟩
  · intro hc
    have ho : (s.received b).owner = .handler := rfl
    cases ht : msgMsgType b with
    | login =>
        change wp (Server.hatchMsgLogin .received) _ _ _
        rw [Server.wp_hatchMsgLogin ho]
        split_ifs with hr hm h42 h43 hq
        · exact .loginTaken ⟨hc, ht⟩ hm
        · exact .loginAdded ⟨hc, ht⟩ hm hq
        · exact .loginFull ⟨hc, ht⟩ hm hq
    | update =>
        change wp (Server.hatchMsgUpdate .received) _ _ _
        rw [Server.wp_hatchMsgUpdate ho]
        split_ifs with hr hm h42
        · exact .updateKnown ⟨hc, ht⟩ hm
        · exact .updateUnknown ⟨hc, ht⟩ hm
    | logout =>
        change wp (Server.hatchMsgLogout .received) _ _ _
        rw [Server.wp_hatchMsgLogout ho]
        split_ifs with hr hm hg
        · exact .logoutKnown ⟨hc, ht⟩ hm hg.2.1
        · exact .logoutUnknown ⟨hc, ht⟩ hm
    | _ =>
        refine ServerEffect.ignored ⟨fun h => ?_, fun h => ?_, fun h => ?_⟩
        all_goals exact absurd (ht.symm.trans h.2) (by simp)

/-- The effect of one client handler on the state it is called in. -/
def HasClientEffect (b : Bytes) (s t : Process) : Prop :=
  ClientEffect b s.userList s.userLock s.sendList.sem t.userList t.userLock t.owner ∧
    t.misuse = s.misuse

section Client

variable {s : Process} {own : UserInfo} (ho : s.owner = .handler)
include ho

theorem wp_clientLogin_effect (h : IsChat s.msg .login) :
    wp (Client.hatchMsgLogin .received) True (fun _ t => HasClientEffect s.msg s t) s := by
  cases hi : s.userList[1]? with
  | none => exact (Client.wp_hatchMsgLogin_none hi).mpr trivial
  | some own =>
      rw [Client.wp_hatchMsgLogin ho hi]
      split_ifs
      · exact ⟨by simpa only [ho] using ClientEffect.login h own hi .login, rfl⟩
      · exact ⟨by simpa only [ho] using ClientEffect.login h own hi .null, rfl⟩

theorem wp_clientUpdate_effect (h : IsChat s.msg .update) :
    wp (Client.hatchMsgUpdate .received) True (fun _ t => HasClientEffect s.msg s t) s := by
  cases hi : s.userList[1]? with
  | none => exact (Client.wp_hatchMsgUpdate_none hi).mpr trivial
  | some own =>
      by_cases ha : own.Active
      · rw [Client.wp_hatchMsgUpdate_active ho hi ha, Client.wp_hatchMsgUpdateOther ho hi]
        split_ifs with hr hm hx he h84
        · exact ⟨by simpa only [ho] using ClientEffect.updateKnown h own hi ha hm, rfl⟩
        · exact ⟨.updateError h own hi ha hm he, rfl⟩
        · exact ⟨.updateAdded h own hi ha hm he, rfl⟩
      · by_cases hl : own.status = some .login
        · rw [Client.wp_hatchMsgUpdate_login ho hi hl]
          split_ifs
          all_goals exact ⟨.updateOwn h own hi hl _, rfl⟩
        · have hs := UserInfo.idle_of_not_active ha hl
          rw [Client.wp_hatchMsgUpdate_idle ho hi hs]
          exact ⟨.updateIdle h own hi hs, rfl⟩

theorem wp_clientText_effect (h : IsChat s.msg .text) :
    wp (Client.hatchMsgText .received) True (fun _ t => HasClientEffect s.msg s t) s := by
  cases hi : s.userList[1]? with
  | none => exact (Client.wp_hatchMsgText_none hi).mpr trivial
  | some own =>
      rw [Client.wp_hatchMsgText ho hi, Client.wp_hatchMsgUpdateUp ho]
      by_cases hr : Comparable (names s.userList) s.msg
      · rw [if_pos hr]
        by_cases hm : msgUserName s.msg ∈ names s.userList
        · rw [if_pos hm]
          by_cases he : msgUserName s.msg = own.name
          · rw [if_pos he]
            split
            · exact ⟨.textKnown h hm, rfl⟩
            · trivial
          · rw [if_neg he]
            split
            · rename_i u hu
              split_ifs with ha ht hd
              · exact ⟨.textRaised h hm _ u hu, rfl⟩
              · exact ⟨.textKnown h hm, rfl⟩
              · exact ⟨.textKnown h hm, rfl⟩
            · trivial
        · rw [if_neg hm]
          split
          · split
            · exact ⟨.textUnknown h hm, rfl⟩
            · trivial
          · trivial
      · rw [if_neg hr]
        trivial

theorem wp_clientBackSyn_effect (h : IsChat s.msg .backSyn) :
    wp (Client.hatchMsgBackSyn .received) True (fun _ t => HasClientEffect s.msg s t) s := by
  rw [Client.wp_hatchMsgBackSyn ho]
  split_ifs with hr hm h84
  · exact ⟨.backSynKnown h hm, rfl⟩
  · exact ⟨by simpa only [ho] using ClientEffect.backSynAdded h hm, rfl⟩

theorem wp_clientLogout_effect (h : IsChat s.msg .logout) :
    wp (Client.hatchMsgLogout .received) True (fun _ t => HasClientEffect s.msg s t) s := by
  cases hi : s.userList[1]? with
  | none =>
      rw [Client.wp_hatchMsgLogout_none hi ho]
      split_ifs with hr hm
      exact ⟨.logoutUnknown h hm, rfl⟩
  | some own =>
      rw [Client.wp_hatchMsgLogout ho hi]
      split_ifs with hr hm he
      · exact ⟨.logoutOwn h hm own hi he, rfl⟩
      · exact ⟨.logoutOther h hm own hi he, rfl⟩
      · exact ⟨.logoutUnknown h hm, rfl⟩

end Client

/-- A client never touches the received buffer after giving it away. -/
theorem wp_client_effect (b : Bytes) (s : Process) :
    wp (hatchMsgProc clientProtocol b) True
      (fun _ t => ClientEffect b s.userList s.userLock s.sendList.sem
        t.userList t.userLock t.owner ∧ t.misuse = false) s := by
  apply wp_hatchMsgProc_true
  · intro hp r
    refine ⟨.ignored ⟨?_, ?_, ?_, ?_, ?_⟩, rfl⟩
    all_goals exact fun h => hp h.1
  · intro hc
    have ho : (s.received b).owner = .handler := rfl
    cases ht : msgMsgType b with
    | login => exact wp_clientLogin_effect ho ⟨hc, ht⟩
    | update => exact wp_clientUpdate_effect ho ⟨hc, ht⟩
    | text => exact wp_clientText_effect ho ⟨hc, ht⟩
    | backSyn => exact wp_clientBackSyn_effect ho ⟨hc, ht⟩
    | logout => exact wp_clientLogout_effect ho ⟨hc, ht⟩
    | _ =>
        refine ⟨ClientEffect.ignored ⟨?_, ?_, ?_, ?_, ?_⟩, rfl⟩
        all_goals exact fun h => absurd (ht.symm.trans h.2) (by simp)

end Hatch.Net
