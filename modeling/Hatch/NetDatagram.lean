import Hatch.NetOutcome

/-!
# Datagrams of every length

`hatchPacketRecvProc` allocates what arrived and not a byte more, and the handlers read the
buffer through the packed structures. A message whose fields are all there is handled inside
its buffer in every state: the writes of a handler keep the size, the name field and its
terminator. No handler looks at the size first, so a message with a field missing is never
refused for it.
-/

namespace Hatch.Net

open ByteLayout FaultProgram Prog

/-- `m_msgUserName` is inside the buffer and ends inside its own 32 bytes. -/
def Named (b : Bytes) : Prop :=
  offMsgText ≤ b.length ∧ (0 : UInt8) ∈ field b offUserName usernameMaxLength

/-- A named message in a buffer of `n` bytes that says so itself. -/
structure Sound (n : ℕ) (b : Bytes) : Prop where
  size : msgISize b = n
  length : b.length = n
  named : Named b

/-- The handler stays inside the buffer, and what it writes there keeps `R`. -/
abbrev Guarded {α : Type} (R : Bytes → Prop) (p : Handler α) : Prop :=
  Avoids .outOfBounds (fun s => R s.msg) p (fun _ t => R t.msg)

section Buffer

variable {n : ℕ} {b : Bytes}

theorem Sound.long (h : Sound n b) : 68 ≤ n := h.length ▸ h.named.1

theorem Sound.readable (h : Sound n b) : Readable b := List.mem_of_mem_take h.named.2

/-- A write past the size field that keeps the name terminated. -/
theorem Sound.write {off : ℕ} {d : Bytes} (h : Sound n b) (hoff : 4 ≤ off)
    (hin : off + d.length ≤ n)
    (hname : (0 : UInt8) ∈ field (patch b off d) offUserName usernameMaxLength) :
    Sound n (patch b off d) := by
  have hb := h.length
  have hlen : (patch b off d).length = n := by
    rw [length_patch (hb.symm ▸ hin), hb]
  have hsize : msgISize (patch b off d) = n := by
    rw [msgISize, field_patch_before (by omega) hoff]
    exact h.size
  exact ⟨hsize, hlen, hlen.symm ▸ h.long, hname⟩

theorem Sound.write_beside {off : ℕ} {d : Bytes} (h : Sound n b) (hoff : 4 ≤ off)
    (hin : off + d.length ≤ n) (hd : off + d.length ≤ offUserName ∨ offMsgText ≤ off) :
    Sound n (patch b off d) := by
  have hb := h.length
  have hsame : field (patch b off d) offUserName usernameMaxLength =
      field b offUserName usernameMaxLength := by
    rcases hd with hd | hd
    · exact field_patch_after (by omega) hd
    · exact field_patch_before (by omega) hd
  exact h.write hoff hin (hsame ▸ h.named.2)

theorem Sound.name_fits {m : Bytes} (h : Sound n b) (hm : m.length < usernameMaxLength) :
    offUserName + (m ++ [(0 : UInt8)]).length ≤ n := by
  have hn := h.long
  rw [List.length_append]
  change 36 + (m.length + 1) ≤ n
  change m.length < 32 at hm
  omega

theorem Sound.write_name {m : Bytes} (h : Sound n b) (hm : m.length < usernameMaxLength) :
    Sound n (patch b offUserName (m ++ [0])) := by
  have hb := h.length
  have hin := h.name_fits hm
  have hl : (m ++ [(0 : UInt8)]).length = m.length + 1 := List.length_append
  have hsame : field (patch b offUserName (m ++ [0])) offUserName (m.length + 1) = m ++ [0] := by
    rw [← hl]
    exact field_patch_same (by omega)
  refine h.write (by decide) hin (mem_field_mono (k := m.length + 1) ?_ hm)
  rw [hsame]
  exact List.mem_append_right m (List.mem_singleton.mpr rfl)

end Buffer

section Operations

variable {α : Type} {R : Bytes → Prop} {n : ℕ}

/-- An operation that returns and does not touch the buffer. -/
theorem guarded_of_wp {p : Handler α} (h : ∀ s, wp p False (fun _ t => t.msg = s.msg) s) :
    Guarded R p := by
  refine .of_wp fun s hs => wp_mono (Q := fun _ t => t.msg = s.msg) ?_ (h s)
  intro a t ht
  rwa [ht]

theorem guarded_get : Guarded R (Prog.get : Handler Process) := .get fun _ hs => hs

/-- The value read is that of a buffer with `R`. -/
theorem avoids_readWith {ok : Bytes → Prop} [DecidablePred ok] {f : Bytes → α}
    (h : ∀ b, R b → ok b) :
    Avoids .outOfBounds (fun s => R s.msg) (readWith .received ok f)
      (fun a t => (∃ b, R b ∧ f b = a) ∧ R t.msg) := by
  refine .of_wp fun s hs => (wp_readWith_received ok f _).mpr ?_
  rw [if_pos (h s.msg hs)]
  exact ⟨⟨s.msg, hs, rfl⟩, hs⟩

theorem guarded_readWith {ok : Bytes → Prop} [DecidablePred ok] {f : Bytes → α}
    (h : ∀ b, R b → ok b) : Guarded R (readWith .received ok f) :=
  (avoids_readWith h).mono fun _ _ ht => ht.2

theorem guarded_writeField {off : ℕ} {d : Bytes}
    (h : ∀ b, R b → off + d.length ≤ b.length ∧ R (patch b off d)) :
    Guarded R (writeField off d) := by
  refine .of_wp fun s hs => (wp_writeField off d _).mpr ?_
  rw [if_pos (h s.msg hs).1]
  exact (h s.msg hs).2

theorem guarded_writeUserName (m : Bytes) : Guarded (Sound n) (writeUserName m) := by
  refine .bind (.require_other nofun) fun _ => .of_and fun hm => ?_
  refine guarded_writeField fun b hb => ⟨?_, hb.write_name hm⟩
  rw [hb.length]
  exact hb.name_fits hm

theorem guarded_dispose (p : PMsgSt) : Guarded R (dispose p) := by
  cases p with
  | received => exact guarded_of_wp fun s => rfl
  | fresh b => exact guarded_of_wp fun s => rfl

/-- The end of a handler that has no more use for the message. -/
theorem guarded_dispose_return (p : PMsgSt) (r : α) :
    Guarded R (do dispose p; return r) :=
  .bind (guarded_dispose p) fun _ => .pure fun _ hs => hs

theorem guarded_hatchLocateUser (name : Option Bytes) : Guarded R (hatchLocateUser name) := by
  cases name with
  | some m => exact guarded_of_wp fun s => (wp_hatchLocateUser_some m _).mpr rfl
  | none =>
      exact .bind (.modify fun _ hs => hs) fun _ => .bind guarded_get fun _ =>
        .bind (.require_other nofun) fun _ => .bind (.modify fun _ hs => hs.2) fun _ =>
        .pure fun _ hs => hs

theorem guarded_hatchSetUserName (u : UserInfo) (m : Bytes) :
    Guarded R (hatchSetUserName u m) :=
  .bind (.require_other nofun) fun _ => .pure fun _ hs => hs.2

theorem guarded_hatchPushUser (u : UserInfo) : Guarded R (hatchPushUser u) :=
  guarded_of_wp fun _ => (wp_of_run (hatchPushUser_run u) _).mpr rfl

theorem guarded_hatchPopUser (m : Bytes) : Guarded R (hatchPopUser m) :=
  guarded_of_wp fun _ => (wp_of_run (hatchPopUser_run m) _).mpr rfl

theorem guarded_hatchIsUserInList (m : Bytes) : Guarded R (hatchIsUserInList m) :=
  guarded_of_wp fun _ => (wp_of_run (hatchIsUserInList_run m) _).mpr rfl

theorem guarded_userAt (ite : ℕ) : Guarded R (userAt ite) := by
  refine .bind guarded_get fun s => ?_
  cases s.userList[ite]? with
  | none => exact .fault nofun
  | some u => exact .pure fun _ hs => hs

theorem guarded_hatchSetStatus (ite : ℕ) (status : UserStatus) :
    Guarded R (hatchSetStatus ite status) :=
  .bind (guarded_userAt ite) fun _ => .modify fun _ hs => hs

theorem guarded_hatchPushSendMsgList (p : PMsgSt) : Guarded R (hatchPushSendMsgList p) := by
  cases p with
  | received =>
      refine guarded_of_wp fun s => (wp_hatchPushSendMsgList_received _).mpr ?_
      split <;> rfl
  | fresh b =>
      refine guarded_of_wp fun s => (wp_hatchPushSendMsgList_fresh b _).mpr ?_
      split <;> rfl

theorem guarded_hatchPushSendMsgGroup (servicesType : ℕ) {p : PMsgSt}
    (h : ∀ us, Guarded R (hatchPushSendMsgGroupLoop p us)) :
    Guarded R (hatchPushSendMsgGroup servicesType p) :=
  .bind (.modify (R := fun _ t => R t.msg) fun _ hs => hs) fun _ =>
  .bind guarded_get fun _ =>
  .bind (.require_other nofun) fun _ => .of_and fun _ =>
  .bind (h _) fun _ =>
  .bind (guarded_dispose p) fun _ =>
  .bind (.modify (R := fun _ t => R t.msg) fun _ hs => hs) fun _ =>
  .pure fun _ hs => hs

theorem guarded_groupLoop_fresh {b : Bytes} (h : Groupable b) (us : List UserInfo) :
    Guarded R (hatchPushSendMsgGroupLoop (.fresh b) us) := by
  refine guarded_of_wp fun s => (wp_groupLoop_fresh b us _).mpr ?_
  rw [if_pos (.inr h)]

end Operations

section Reads

variable {R : Bytes → Prop} {n : ℕ} (hR : ∀ b, R b → Sound n b)
include hR

theorem guarded_readFromAddr : Guarded R (readFromAddr .received) := by
  refine guarded_readWith fun b hb => ?_
  have hn := (hR b hb).long
  rw [(hR b hb).length]
  change 20 ≤ n
  omega

theorem guarded_compareUserName (xs : List Bytes) :
    Guarded R (compareUserName .received xs) :=
  guarded_readWith fun b hb => (hR b hb).readable.comparable xs

theorem guarded_compareListed : Guarded R (compareListed .received) :=
  .bind guarded_get fun _ => guarded_compareUserName hR _

/-- The name copied is that of a buffer, and it fits. -/
theorem avoids_copyUserName : Avoids .outOfBounds (fun s => R s.msg) (copyUserName .received)
    (fun m t => ((∃ b, msgUserName b = m) ∧ m.length < usernameMaxLength) ∧ R t.msg) := by
  refine .bind (avoids_readWith fun b hb => .inl (hR b hb).readable) fun m => .of_and ?_
  rintro ⟨b, -, hb⟩
  exact .bind (.require_other nofun) fun _ => .pure fun _ hs => ⟨⟨⟨b, hb⟩, hs.1⟩, hs.2⟩

theorem guarded_readBytes : Guarded R (readBytes .received n) :=
  guarded_readWith fun b hb => (hR b hb).length.ge

/-- The size field holds the size of the buffer. -/
theorem avoids_readISize : Avoids .outOfBounds (fun s => R s.msg) (readISize .received)
    (fun k t => k = n ∧ R t.msg) := by
  refine (avoids_readWith fun b hb => ?_).mono ?_
  · have hn := (hR b hb).long
    rw [(hR b hb).length]
    omega
  · rintro k t ⟨⟨b, hb, rfl⟩, ht⟩
    exact ⟨(hR b hb).size, ht⟩

theorem guarded_groupLoop_received (us : List UserInfo) :
    Guarded R (hatchPushSendMsgGroupLoop .received us) := by
  induction us with
  | nil => exact .pure fun _ hs => hs
  | cons u us ih =>
      refine .bind (avoids_readISize hR) fun k => .of_and ?_
      rintro rfl
      refine .bind (guarded_readBytes hR) fun b => .bind (.require fun s hs => ?_) fun _ =>
        .bind (guarded_hatchPushSendMsgList _) fun _ => ih
      exact Nat.le_trans (by decide) (hR s.msg hs).long

end Reads

section Handlers

variable {n : ℕ}

theorem Server.guarded_hatchMsgLogin : Guarded (Sound n) (Server.hatchMsgLogin .received) := by
  have hR : ∀ b, Sound n b → Sound n b := fun _ h => h
  refine .bind (guarded_readFromAddr hR) fun sender => ?_
  refine .bind (avoids_copyUserName hR) fun m => .of_and ?_
  rintro ⟨⟨b, rfl⟩, hm⟩
  refine .bind (guarded_hatchSetUserName _ _) fun u => .bind (guarded_hatchPushUser u) fun ret => ?_
  refine .ite ?_ ?_
  · exact .bind (guarded_writeUserName _) fun _ => .bind (guarded_hatchPushSendMsgList _) fun _ =>
      .pure fun _ hs => hs
  · refine .bind (guarded_writeUserName _) fun _ => .bind (guarded_hatchPushSendMsgList _) fun _ =>
      .ite ?_ ?_
    · exact .bind (guarded_hatchPopUser _) fun _ => guarded_dispose_return _ _
    · refine .bind (guarded_readFromAddr hR) fun dest => .bind guarded_get fun s => ?_
      have hc : CarriesAddr (updateMsg updateDownOffset dest
          (contextUpdate s.junk (msgUserName b) sender)) .update (msgUserName b) sender :=
        carriesAddr_updateMsg (zero_notMem_cstr b offUserName) hm
      exact guarded_hatchPushSendMsgGroup 0 (guarded_groupLoop_fresh hc.toCarries.groupable)

theorem Server.guarded_hatchMsgUpdate : Guarded (Sound n) (Server.hatchMsgUpdate .received) := by
  refine .bind (guarded_compareListed fun _ h => h) fun m =>
    .bind (guarded_hatchIsUserInList m) fun ret => .ite ?_ ?_
  · exact .bind (guarded_writeUserName _) fun _ => .bind (guarded_hatchPushSendMsgList _) fun _ =>
      .pure fun _ hs => hs
  · exact .bind (guarded_hatchPushSendMsgList _) fun _ => .pure fun _ hs => hs

theorem Server.guarded_hatchMsgLogout : Guarded (Sound n) (Server.hatchMsgLogout .received) := by
  have hR : ∀ b, Sound n b → Sound n b := fun _ h => h
  refine .bind (guarded_compareListed hR) fun m =>
    .bind (guarded_hatchIsUserInList m) fun ret => .ite ?_ ?_
  · exact guarded_dispose_return _ _
  · refine .bind (guarded_hatchPopUser m) fun _ => .bind (avoids_readISize hR) fun k => .of_and ?_
    rintro rfl
    exact .bind (guarded_readBytes hR) fun copy => .bind (guarded_hatchPushSendMsgList _) fun _ =>
      guarded_hatchPushSendMsgGroup 0 (guarded_groupLoop_received hR)

theorem Client.guarded_hatchMsgLogin : Guarded (Sound n) (Client.hatchMsgLogin .received) := by
  refine .bind (guarded_hatchLocateUser _) fun ite =>
    .bind (guarded_compareUserName (fun _ h => h) _) fun m => .ite ?_ ?_
  · exact .bind (guarded_hatchSetStatus _ _) fun _ => .bind (.modify fun _ hs => hs) fun _ =>
      .pure fun _ hs => hs
  · exact .bind (guarded_hatchSetStatus _ _) fun _ => .pure fun _ hs => hs

theorem Client.guarded_hatchMsgLogout : Guarded (Sound n) (Client.hatchMsgLogout .received) := by
  refine .bind (guarded_compareListed fun _ h => h) fun m =>
    .bind (guarded_hatchIsUserInList m) fun ret => .ite ?_ ?_
  · exact guarded_dispose_return _ _
  · refine .bind (guarded_hatchLocateUser _) fun ite => .bind (guarded_userAt ite) fun own =>
      .ite ?_ ?_
    · exact .bind (guarded_hatchSetStatus _ _) fun _ => .bind (guarded_dispose _) fun _ =>
        .bind (.modify fun _ hs => hs) fun _ => .pure fun _ hs => hs
    · exact .bind (guarded_hatchPopUser _) fun _ => guarded_dispose_return _ _

section Text

variable {R : Bytes → Prop} (hR : ∀ b, R b → Sound n b)
include hR

theorem Client.guarded_hatchMsgUpdateUp : Guarded R (Client.hatchMsgUpdateUp .received) :=
  .bind (guarded_readFromAddr hR) fun _ => .bind (avoids_copyUserName hR) fun _ => .of_and fun _ =>
  .bind (guarded_hatchLocateUser _) fun _ => .bind (guarded_userAt _) fun _ =>
  .bind guarded_get fun _ => .bind (guarded_dispose _) fun _ =>
  guarded_hatchPushSendMsgList _

theorem Client.guarded_hatchMsgText (ht : ∀ b, R b → (0 : UInt8) ∈ b.drop offMsgText) :
    Guarded R (Client.hatchMsgText .received) := by
  refine .bind (guarded_hatchLocateUser _) fun ite => .bind (guarded_userAt ite) fun own =>
    .bind (guarded_compareListed hR) fun m => .bind (guarded_hatchIsUserInList m) fun ret =>
    .ite (Client.guarded_hatchMsgUpdateUp hR) (.bind (guarded_hatchLocateUser _) fun at' =>
    .ite (guarded_hatchPushSendMsgGroup 1 (guarded_groupLoop_received hR)) ?_)
  refine .bind (guarded_userAt at') fun u => ?_
  cases u.status with
  | none => exact guarded_dispose_return _ _
  | some status =>
      cases status with
      | login => exact guarded_dispose_return _ _
      | null => exact guarded_dispose_return _ _
      | hide =>
          exact .bind (guarded_hatchSetStatus _ _) fun _ => .bind (guarded_readWith ht) fun _ =>
            guarded_dispose_return _ _
      | online => exact .bind (guarded_readWith ht) fun _ => guarded_dispose_return _ _
      | busy => exact .bind (guarded_readWith ht) fun _ => guarded_dispose_return _ _

end Text

section Address

variable (h84 : offUserAddr + sizeofSockAddrIn ≤ n)
include h84

theorem guarded_readUserAddr : Guarded (Sound n) (readUserAddr .received) :=
  guarded_readWith fun _ hb => hb.length.symm ▸ h84

theorem Client.guarded_writeBackSyn (a : SockAddrIn) (me : Endpoint) (own : Bytes) :
    Guarded (Sound n) (Client.writeBackSyn a me own) := by
  have hfield : ∀ off d, 4 ≤ off → off + d.length ≤ offUserName ∨ offMsgText ≤ off →
      off + d.length ≤ 84 → Guarded (Sound n) (writeField off d) := by
    intro off d hoff hd hlen
    have hin : off + d.length ≤ n := Nat.le_trans hlen h84
    exact guarded_writeField fun b hb => ⟨hb.length.symm ▸ hin, hb.write_beside hoff hin hd⟩
  exact .bind (hfield _ _ (by decide) (.inl (by simp)) (by simp)) fun _ =>
    .bind (hfield _ _ (by decide) (.inl (by simp)) (by simp)) fun _ =>
    .bind (hfield _ _ (by decide) (.inr (by simp)) (by simp)) fun _ => guarded_writeUserName own

theorem Client.guarded_hatchMsgUpdateOther (own : UserInfo) :
    Guarded (Sound n) (Client.hatchMsgUpdateOther .received own) := by
  refine .bind (guarded_compareListed fun _ h => h) fun m =>
    .bind (guarded_hatchIsUserInList m) fun ret => .ite (.pure fun _ hs => hs)
      (.bind (guarded_compareUserName (fun _ h => h) _) fun m => .ite ?_ ?_)
  · exact guarded_dispose_return _ _
  · refine .bind (guarded_readUserAddr h84) fun a => .bind (guarded_hatchSetUserName _ _) fun u =>
      .bind (guarded_hatchPushUser u) fun ret => .ite ?_ ?_
    · exact guarded_dispose_return _ _
    · exact .bind (guarded_hatchLocateUser _) fun ite => .bind (guarded_userAt ite) fun me =>
        .bind (Client.guarded_writeBackSyn h84 a _ _) fun _ => guarded_hatchPushSendMsgList _

theorem Client.guarded_hatchMsgUpdate : Guarded (Sound n) (Client.hatchMsgUpdate .received) := by
  refine .bind (guarded_hatchLocateUser _) fun ite => .bind (guarded_userAt ite) fun own => ?_
  cases own.status with
  | none => exact guarded_dispose_return _ _
  | some status =>
      cases status with
      | login =>
          exact .bind (guarded_compareUserName (fun _ h => h) _) fun m =>
            .ite (.bind (guarded_hatchSetStatus _ _) fun _ => guarded_dispose_return _ _)
              (.bind (guarded_hatchSetStatus _ _) fun _ => guarded_dispose_return _ _)
      | null => exact guarded_dispose_return _ _
      | online => exact Client.guarded_hatchMsgUpdateOther h84 own
      | hide => exact Client.guarded_hatchMsgUpdateOther h84 own
      | busy => exact Client.guarded_hatchMsgUpdateOther h84 own

theorem Client.guarded_hatchMsgBackSyn : Guarded (Sound n) (Client.hatchMsgBackSyn .received) := by
  refine .bind (guarded_compareListed fun _ h => h) fun m =>
    .bind (guarded_hatchIsUserInList m) fun ret => .ite ?_ ?_
  · exact guarded_dispose_return _ _
  · refine .bind (guarded_readUserAddr h84) fun a => .bind (guarded_hatchSetUserName _ _) fun u =>
      .bind (guarded_hatchPushUser u) fun ret => .ite ?_ ?_
    · exact guarded_dispose_return _ _
    · exact .pure fun _ hs => hs

end Address

end Handlers

inductive Side
  | server | client

def Side.protocol : Side → Protocol
  | server => serverProtocol
  | client => clientProtocol

/-- What `recvfrom` can return: one byte to `MSGPACKET_MAX_LENGTH`. -/
structure Packet where
  bytes : Bytes
  nonempty : bytes ≠ []
  short : bytes.length ≤ msgPacketMaxLength

/-- The fields of a chat message of type `t` that the handler on this side reads. -/
def HasFields (b : Bytes) : Side → MsgType → Prop
  | .server, .login | .server, .update | .server, .logout => Named b
  | .client, .login | .client, .logout => Named b
  | .client, .update | .client, .backSyn => Named b ∧ offUserAddr + sizeofSockAddrIn ≤ b.length
  | .client, .text => Named b ∧ (0 : UInt8) ∈ b.drop offMsgText
  | _, _ => True

/-- The message has its protocol type, a chat message its type and the fields that go with it. -/
def Whole (side : Side) (b : Bytes) : Prop :=
  offProtocolType + 4 ≤ b.length ∧ (msgProtocolType b = .chat →
    offMsgType + 4 ≤ b.length ∧ HasFields b side (msgMsgType b))

/-- In every state of the process the buffer is read and written inside its bounds, and refused
with a negative code if it is not whole. -/
def Handled (side : Side) (b : Bytes) : Prop :=
  ∀ s : Process, hatchMsgProc side.protocol b s ≠ .error .outOfBounds ∧
    (¬ Whole side b → ∃ r t, hatchMsgProc side.protocol b s = .ok (r, t) ∧ r < 0)

/-- Whatever the receive loop queues for the datagram is handled. -/
def Robust (side : Side) (sender : SockAddrIn) (d : Packet) : Prop :=
  ∀ s t b, hatchPacketRecvProc sender d.bytes s = .ok ((), t) →
    t.recvList.list = s.recvList.list ++ [b] → Handled side b

theorem hatchPacketRecvProc_run (sender : SockAddrIn) (d : Packet) (s : Process) :
    hatchPacketRecvProc sender d.bytes s =
      .ok ((), { s with recvList := (s.recvList.push (recvMsg sender d.bytes)).2 }) := by
  have hd : ¬ (d.bytes = [] ∨ msgPacketMaxLength < d.bytes.length) := by
    rintro (h | h)
    · exact d.nonempty h
    · exact absurd d.short (Nat.not_le_of_lt h)
  rw [hatchPacketRecvProc, if_neg hd]
  rfl

/-- The receive loop queues the datagram behind its local header, or drops it. -/
theorem robust_iff {side : Side} {sender : SockAddrIn} {d : Packet} :
    Robust side sender d ↔ Handled side (recvMsg sender d.bytes) := by
  constructor
  · intro h
    exact h (Process.fresh fun _ => 0) _ _ (hatchPacketRecvProc_run sender d _) rfl
  · intro h s t b hrun hlist
    rw [hatchPacketRecvProc_run] at hrun
    cases hrun
    by_cases hq : s.recvList.sem < netMessageListMaxLength
    · rw [MsgQueue.push_of_lt hq] at hlist
      have hb := List.append_cancel_left hlist
      cases hb
      exact h
    · rw [MsgQueue.push_of_not_lt hq] at hlist
      have hlen := congrArg List.length hlist
      simp at hlen

section Dispatch

variable {side : Side} {b : Bytes}

theorem avoids_of_guarded {R : Bytes → Prop} {p : Handler ℤ} (h : Guarded R p) (hb : R b) :
    Avoids .outOfBounds (fun s => s.msg = b) p (fun _ _ => True) := by
  refine Avoids.mono (h.start ?_) fun _ _ _ => trivial
  rintro s rfl
  exact hb

theorem avoids_dispatchChat (hsize : msgISize b = b.length) {t : MsgType}
    (hb : HasFields b side t) :
    Avoids .outOfBounds (fun s => s.msg = b) (dispatchChat side.protocol .received t)
      (fun _ _ => True) := by
  have hpure (r : ℤ) : Avoids .outOfBounds (fun s => s.msg = b) (pure r : Handler ℤ)
      (fun _ _ => True) := .pure fun _ _ => trivial
  have hsound (hn : Named b) : Sound b.length b := ⟨hsize, rfl, hn⟩
  cases side with
  | server =>
      cases t with
      | login => exact avoids_of_guarded Server.guarded_hatchMsgLogin (hsound hb)
      | update => exact avoids_of_guarded Server.guarded_hatchMsgUpdate (hsound hb)
      | logout => exact avoids_of_guarded Server.guarded_hatchMsgLogout (hsound hb)
      | status => exact hpure 0
      | text => exact hpure 0
      | backSyn => exact hpure 0
      | null => exact hpure (-1)
      | other code => exact hpure (-1)
  | client =>
      cases t with
      | login => exact avoids_of_guarded Client.guarded_hatchMsgLogin (hsound hb)
      | update => exact avoids_of_guarded (Client.guarded_hatchMsgUpdate hb.2) (hsound hb.1)
      | backSyn => exact avoids_of_guarded (Client.guarded_hatchMsgBackSyn hb.2) (hsound hb.1)
      | logout => exact avoids_of_guarded Client.guarded_hatchMsgLogout (hsound hb)
      | text =>
          refine avoids_of_guarded (R := fun m => m = b)
            (Client.guarded_hatchMsgText (n := b.length) ?_ ?_) rfl
          · rintro m rfl
            exact hsound hb.1
          · rintro m rfl
            exact hb.2
      | status => exact hpure 0
      | null => exact hpure (-1)
      | other code => exact hpure (-1)

theorem avoids_hatchMsgProc (hsize : msgISize b = b.length) (hb : Whole side b) :
    Avoids .outOfBounds (fun _ => True) (hatchMsgProc side.protocol b) (fun _ _ => True) := by
  refine .bind (.modify (R := fun _ s => s.msg = b) fun _ _ => rfl) fun _ => ?_
  refine .bind (avoids_readWith (R := fun m => m = b) ?_) fun t => .of_and ?_
  · rintro m rfl
    exact hb.1
  rintro ⟨m, rfl, rfl⟩
  cases ht : msgProtocolType m with
  | chat =>
      refine .bind (avoids_readWith (R := fun m' => m' = m) ?_) fun t => .of_and ?_
      · rintro m' rfl
        exact (hb.2 ht).1
      rintro ⟨m', rfl, rfl⟩
      exact avoids_dispatchChat hsize (hb.2 ht).2
  | lmt => exact .pure fun _ _ => trivial
  | null => exact .pure fun _ _ => trivial
  | other code => exact .pure fun _ _ => trivial

/-- A state in which no handler finds a reason to refuse: the server lists nobody, the client
has just been told that its Login was accepted, and the send queue is empty. -/
def lenient : Side → Process
  | .server => Process.fresh fun _ => 0
  | .client => { Process.fresh fun _ => 0 with
      userList := [serverUser, { clientInitUser with status := some .login }] }

theorem wp_lenient_server (t : MsgType) (h : ¬ HasFields b .server t) :
    wp (dispatchChat serverProtocol .received t) True (fun r _ => 0 ≤ r)
      ((lenient .server).received b) := by
  cases t with
  | login =>
      refine (Server.wp_hatchMsgLogin rfl).mpr ?_
      change if _ then (if msgUserName b ∈ [] then _ else if _ then _ else _) else _
      rw [if_neg List.not_mem_nil]
      change if _ then (if _ then (if 0 < netMessageListMaxLength then _ else _) else _) else _
      have hroom : 0 < netMessageListMaxLength := by decide
      rw [if_pos hroom]
      split
      · split <;> trivial
      · trivial
  | update =>
      refine (Server.wp_hatchMsgUpdate rfl).mpr ?_
      split
      · split
        · exact le_rfl
        · split <;> trivial
      · trivial
  | logout =>
      refine (Server.wp_hatchMsgLogout rfl).mpr ?_
      split
      · split
        · split <;> trivial
        · exact le_rfl
      · trivial
  | status => exact absurd trivial h
  | text => exact absurd trivial h
  | backSyn => exact absurd trivial h
  | null => exact absurd trivial h
  | other code => exact absurd trivial h

theorem wp_lenient_client (t : MsgType) (h : ¬ HasFields b .client t) :
    wp (dispatchChat clientProtocol .received t) True (fun r _ => 0 ≤ r)
      ((lenient .client).received b) := by
  cases t with
  | login =>
      refine (Client.wp_hatchMsgLogin rfl rfl).mpr ?_
      split <;> trivial
  | update =>
      refine (Client.wp_hatchMsgUpdate_login rfl rfl rfl).mpr ?_
      split <;> trivial
  | backSyn =>
      refine (Client.wp_hatchMsgBackSyn rfl).mpr ?_
      split
      · split
        · exact le_rfl
        · split <;> trivial
      · trivial
  | logout =>
      refine (Client.wp_hatchMsgLogout rfl rfl).mpr ?_
      split
      · split
        · split <;> exact le_rfl
        · exact le_rfl
      · trivial
  | text =>
      refine (Client.wp_hatchMsgText rfl rfl).mpr ?_
      split
      · split
        · split
          · split <;> trivial
          · split
            · split
              · split
                · exact zero_le_one
                · trivial
              · exact zero_le_one
            · trivial
        · refine (Client.wp_hatchMsgUpdateUp rfl).mpr ?_
          split
          · split
            · exact le_rfl
            · trivial
          · trivial
      · trivial
  | status => exact absurd trivial h
  | null => exact absurd trivial h
  | other code => exact absurd trivial h

theorem wp_lenient (h : ¬ Whole side b) :
    wp (hatchMsgProc side.protocol b) True (fun r _ => 0 ≤ r) (lenient side) := by
  refine wp_hatchMsgProc.mpr ?_
  split
  · next hlen =>
    cases ht : msgProtocolType b with
    | chat =>
        change if _ then _ else _
        split
        · next hlen' =>
          have hf : ¬ HasFields b side (msgMsgType b) := fun hf => h ⟨hlen, fun _ => ⟨hlen', hf⟩⟩
          cases side with
          | server => exact wp_lenient_server _ hf
          | client => exact wp_lenient_client _ hf
        · trivial
    | lmt => exact le_rfl
    | null => exact absurd ⟨hlen, fun hc => by cases ht.symm.trans hc⟩ h
    | other code => exact absurd ⟨hlen, fun hc => by cases ht.symm.trans hc⟩ h
  · trivial

theorem not_handled_of_not_whole (h : ¬ Whole side b) : ¬ Handled side b := by
  intro hh
  obtain ⟨r, t, hrun, hr⟩ := (hh (lenient side)).2 h
  exact absurd (wp_true_of_run hrun (wp_lenient h)) (not_le_of_gt hr)

end Dispatch

/-- A datagram is handled inside its buffer on either side, or refused where a field is missing,
just if no field is missing. -/
theorem datagram_robust_iff (side : Side) (sender : SockAddrIn) (d : Packet) :
    Robust side sender d ↔ Whole side (recvMsg sender d.bytes) := by
  rw [robust_iff]
  constructor
  · intro h
    by_contra hw
    exact not_handled_of_not_whole hw h
  · intro h s
    have hd : d.bytes.length ≤ 1024 := d.short
    have hsize : msgISize (recvMsg sender d.bytes) = (recvMsg sender d.bytes).length :=
      msgISize_recvMsg (by omega)
    exact ⟨(avoids_hatchMsgProc hsize h).ne_error trivial, fun hn => absurd h hn⟩

/-- A chat Login with 32 bytes of name and no terminator. -/
def unterminatedLogin : Packet where
  bytes := leBytes 4 ProtocolType.chat.code ++ leBytes 4 0 ++ leBytes 4 0 ++
    leBytes 4 MsgType.login.code ++ List.replicate 32 97
  nonempty := by decide
  short := by decide

/-- One byte is less than a protocol type, and a Login without a terminator is not refused. -/
theorem datagram_overread :
    ¬ Robust .server (localSockAddr (fun _ => 0) clientEndpoint) ⟨[2], by decide, by decide⟩ ∧
    ¬ Robust .client (localSockAddr (fun _ => 0) serverEndpoint) ⟨[2], by decide, by decide⟩ ∧
    ¬ Robust .server (localSockAddr (fun _ => 0) clientEndpoint) unterminatedLogin := by
  simp only [robust_iff]
  refine ⟨?_, ?_, ?_⟩
  · exact not_handled_of_not_whole fun h => absurd h.1 (by decide)
  · exact not_handled_of_not_whole fun h => absurd h.1 (by decide)
  · refine not_handled_of_not_whole fun h => ?_
    have hf := (h.2 (by decide)).2
    have ht : msgMsgType (recvMsg (localSockAddr (fun _ => 0) clientEndpoint)
        unterminatedLogin.bytes) = .login := by decide
    rw [ht] at hf
    exact absurd hf.2 (by decide)

end Hatch.Net
