import Hatch.NetOutcome
import Hatch.NetRoster
import Mathlib.Data.List.Forall2

/-!
# A Login and the send queue

The reply to a Login and the Updates that announce it are pushed one by one to the bounded
send queue. `hatchMsgLogin` takes the user back if the reply finds no place, but a place that
is missing for an Update is not noticed.
-/

namespace Hatch.Net

open ByteLayout FaultProgram Prog

section Login

variable {s t : Process} {b : Bytes} {r : ℤ}

def LoginBuffer (b : Bytes) : Prop :=
  Readable b ∧ (msgUserName b).length < usernameMaxLength ∧ 43 ≤ b.length

def Accepted (s : Process) (b : Bytes) : Prop :=
  LoginBuffer b ∧ msgUserName b ∉ names s.userList ∧ s.sendList.sem < netMessageListMaxLength

def announcements (s : Process) (b : Bytes) : List Bytes :=
  groupCopies (announcement s.junk b) ((s.userList ++ [loginUser b]).drop 1)

theorem length_announcements : (announcements s b).length = s.userList.length := by
  simp [announcements, groupCopies]

def LoginOutcome (s : Process) (b : Bytes) (r : ℤ) (t : Process) : Prop :=
  (r = -1 ∧ t.userList = s.userList) ∨
    (r = 0 ∧ Accepted s b ∧ t.userList = s.userList ++ [loginUser b] ∧
      t.sendList.list = s.sendList.list ++ rename b serverName ::
        (announcements s b).take (netMessageListMaxLength - (s.sendList.sem + 1)))

theorem loginOutcome_of_run (h : Server.hatchMsgLogin .received (s.received b) = .ok (r, t)) :
    LoginOutcome s b r t := by
  refine wp_true_of_run (Q := LoginOutcome s b) h ((Server.wp_hatchMsgLogin rfl).mpr ?_)
  change if Readable b ∧ (msgUserName b).length < usernameMaxLength then _ else _
  split
  · next hr =>
    change if msgUserName b ∈ names s.userList then _ else _
    split
    · change if 42 ≤ b.length then _ else _
      split
      · exact .inl ⟨rfl, rfl⟩
      · trivial
    · next hn =>
      change if 43 ≤ b.length then _ else _
      split
      · next hlen =>
        change if s.sendList.sem < netMessageListMaxLength then _ else _
        split
        · next hq =>
          refine .inr ⟨rfl, ⟨⟨hr.1, hr.2, hlen⟩, hn, hq⟩, rfl, ?_⟩
          change ((s.sendList.push (rename b serverName)).2.pushAll (announcements s b)).list = _
          rw [MsgQueue.pushAll_eq, MsgQueue.push_of_lt hq, List.append_assoc]
          rfl
        · exact .inl ⟨rfl, rfl⟩
      · trivial
  · trivial

/-- On such a buffer the handler returns: zero where the Login is accepted and -1 elsewhere. -/
theorem LoginBuffer.run (hb : LoginBuffer b) (s : Process) :
    ∃ r t, Server.hatchMsgLogin .received (s.received b) = .ok (r, t) ∧
      (Accepted s b ∧ r = 0 ∨ ¬ Accepted s b ∧ r = -1) := by
  refine run_of_wp_false ((Server.wp_hatchMsgLogin rfl).mpr ?_)
  change if Readable b ∧ (msgUserName b).length < usernameMaxLength then _ else _
  rw [if_pos ⟨hb.1, hb.2.1⟩]
  change if msgUserName b ∈ names s.userList then _ else _
  split
  · next hold =>
    change if 42 ≤ b.length then _ else _
    rw [if_pos (Nat.le_of_succ_le hb.2.2)]
    exact .inr ⟨fun ha => ha.2.1 hold, rfl⟩
  · next hnew =>
    change if 43 ≤ b.length then _ else _
    rw [if_pos hb.2.2]
    change if s.sendList.sem < netMessageListMaxLength then _ else _
    split
    · next hq => exact .inl ⟨⟨hb, hnew, hq⟩, rfl⟩
    · next hq => exact .inr ⟨fun ha => hq ha.2.2, rfl⟩

theorem Accepted.run (h : Accepted s b) :
    ∃ t, Server.hatchMsgLogin .received (s.received b) = .ok (0, t) := by
  obtain ⟨r, t, hrun, ⟨-, rfl⟩ | ⟨hn, -⟩⟩ := h.1.run s
  · exact ⟨t, hrun⟩
  · exact absurd h hn

theorem login_refused_run (hb : LoginBuffer b) (h : ¬ Accepted s b) :
    ∃ t, Server.hatchMsgLogin .received (s.received b) = .ok (-1, t) := by
  obtain ⟨r, t, hrun, ⟨ha, -⟩ | ⟨-, rfl⟩⟩ := hb.run s
  · exact absurd ha h
  · exact ⟨t, hrun⟩

def IsReply (b reply : Bytes) : Prop :=
  msgUserName reply = serverName ∧ msgFromAddr reply = msgFromAddr b

def IsUpdateFor (b : Bytes) (u : UserInfo) (m : Bytes) : Prop :=
  CarriesAddr m .update (msgUserName b) (msgFromAddr b) ∧
    (msgFromAddr m).endpoint = (u.addr, u.port)

/-- The send queue has gained the reply and an Update for every listed user but the first. -/
def Announced (s : Process) (b : Bytes) (t : Process) : Prop :=
  ∃ reply updates, t.sendList.list = s.sendList.list ++ reply :: updates ∧ IsReply b reply ∧
    List.Forall₂ (IsUpdateFor b) (t.userList.drop 1) updates

theorem isReply_rename (h : LoginBuffer b) : IsReply b (rename b serverName) := by
  have hlen : offUserName + (serverName ++ [0]).length ≤ b.length := h.2.2
  refine ⟨cstr_of_field ?_ (by decide), msgFromAddr_rename (by simp at hlen ⊢; omega)⟩
  exact field_patch_same (Nat.le_trans (Nat.le_add_right _ _) hlen)

theorem forall₂_announcements (h : LoginBuffer b) (us : List UserInfo) :
    List.Forall₂ (IsUpdateFor b) us (groupCopies (announcement s.junk b) us) := by
  have hc : CarriesAddr (announcement s.junk b) .update (msgUserName b) (msgFromAddr b) :=
    carriesAddr_updateMsg (zero_notMem_cstr b offUserName) h.2.1
  have htake : (announcement s.junk b).take (msgISize (announcement s.junk b)) =
      announcement s.junk b := by
    rw [hc.size, List.take_length]
  rw [groupCopies, htake, List.forall₂_map_right_iff, List.forall₂_same]
  exact fun u _ => ⟨hc.readdress, msgFromAddr_readdress hc.toCarries⟩

/-- A return of zero means that the Login has been announced to everybody. -/
def AllOrNothing (s : Process) (b : Bytes) : Prop :=
  ∀ t, Server.hatchMsgLogin .received (s.received b) = .ok (0, t) → Announced s b t

theorem not_allOrNothing (ha : Accepted s b)
    (hfull : netMessageListMaxLength < s.sendList.sem + 1 + s.userList.length) :
    ¬ AllOrNothing s b := by
  intro h
  obtain ⟨t, hrun⟩ := ha.run
  obtain ⟨reply, updates, hlist, -, hall⟩ := h t hrun
  rcases loginOutcome_of_run hrun with ⟨hr, -⟩ | ⟨-, -, husers, hqueue⟩
  · cases hr
  · have hcount := hall.length_eq
    have hlen := congrArg List.length (hlist.symm.trans hqueue)
    rw [husers] at hcount
    simp only [List.length_append, List.length_cons, List.length_take, List.length_drop,
      List.length_nil, length_announcements] at hcount hlen
    have hq := ha.2.2
    omega

/-- A Login that is accepted is announced to everybody just if the send queue has room for
the reply and an Update for every user that was listed. -/
theorem login_announced_iff (s : Process) (b : Bytes) :
    AllOrNothing s b ↔ (Accepted s b →
      s.sendList.sem + 1 + s.userList.length ≤ netMessageListMaxLength) := by
  constructor
  · intro h ha
    by_contra hfull
    exact not_allOrNothing ha (Nat.lt_of_not_le hfull) h
  · intro h t hrun
    rcases loginOutcome_of_run hrun with ⟨hr, -⟩ | ⟨-, ha, husers, hqueue⟩
    · cases hr
    · have hroom := h ha
      rw [List.take_of_length_le (by rw [length_announcements]; omega)] at hqueue
      refine ⟨_, _, hqueue, isReply_rename ha.1, ?_⟩
      rw [husers]
      exact forall₂_announcements ha.1 _

/-- Two free places for three messages: `bob` logs in beside `server` and `client_init`. -/
theorem login_announcement_lost :
    ¬ AllOrNothing { Process.fresh (fun _ => 0) with
      userList := [serverUser, clientInitUser]
      sendList := ⟨254, List.replicate 254 [], 0⟩ } (arrivingRequest .login bobName.bytes) := by
  refine not_allOrNothing ⟨⟨?_, ?_, ?_⟩, ?_, ?_⟩ ?_
  · decide
  · decide
  · decide
  · decide
  · decide
  · decide

/-- A Login that is refused, because the name is taken or the reply finds no place, leaves the
user list as it was. -/
theorem login_refused_keeps_list {s t : Process} {b : Bytes} {r : ℤ}
    (h : Server.hatchMsgLogin .received (s.received b) = .ok (r, t)) (hr : r < 0) :
    t.userList = s.userList := by
  rcases loginOutcome_of_run h with ⟨-, hlist⟩ | ⟨rfl, -⟩
  · exact hlist
  · exact absurd hr (lt_irrefl 0)

/-- The name `bob` is taken, or the send queue is full. -/
theorem login_refused_keeps_bob :
    (∃ t, Server.hatchMsgLogin .received ({ Process.fresh (fun _ => 0) with
        userList := [serverUser, loginUser (arrivingRequest .login bobName.bytes)] }.received
          (arrivingRequest .login bobName.bytes)) = .ok (-1, t) ∧
      t.userList = [serverUser, loginUser (arrivingRequest .login bobName.bytes)]) ∧
    ∃ t, Server.hatchMsgLogin .received ({ Process.fresh (fun _ => 0) with
        userList := [serverUser]
        sendList := ⟨256, [], 0⟩ }.received (arrivingRequest .login bobName.bytes)) = .ok (-1, t) ∧
      t.userList = [serverUser] := by
  have hb : LoginBuffer (arrivingRequest .login bobName.bytes) :=
    ⟨by decide, by decide, by decide⟩
  obtain ⟨t, ht⟩ := login_refused_run (s := { Process.fresh (fun _ => 0) with
    userList := [serverUser, loginUser (arrivingRequest .login bobName.bytes)] }) hb
    fun ha => ha.2.1 (by decide)
  obtain ⟨u, hu⟩ := login_refused_run (s := { Process.fresh (fun _ => 0) with
    userList := [serverUser]
    sendList := ⟨256, [], 0⟩ }) hb fun ha => absurd ha.2.2 (by decide)
  exact ⟨⟨t, ht, login_refused_keeps_list ht (by decide)⟩,
    ⟨u, hu, login_refused_keeps_list hu (by decide)⟩⟩

end Login

end Hatch.Net
