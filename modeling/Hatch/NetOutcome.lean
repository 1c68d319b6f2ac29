import Hatch.NetProtocol
import Hatch.NetWire

/-!
# Outcomes of the handlers

For every handler, the weakest precondition written out: which bytes must be
inside the buffer, which branch is taken, and the state each exit leaves. All
later results about handlers are read off these equations.
-/

namespace Hatch.Net

open ByteLayout FaultProgram Prog

variable {E : Prop} {s : Process} {Q : ℤ → Process → Prop}

@[simp] theorem CriticalSection.leave_cycle (c : CriticalSection) : c.leave.cycle = c.leave := by
  simp [leave, cycle]

theorem userIndex_append_self {n : Bytes} {l : List UserInfo} {u : UserInfo}
    (h : n ∉ names l) (hu : u.name = n) : userIndex n (l ++ [u]) = l.length := by
  have hl : l.findIdx (fun v => decide (v.name = n)) = l.length := by
    by_contra hc
    exact h (userIndex_ne_length_iff.mp hc)
  simp [userIndex, List.findIdx_append, hl, hu, List.findIdx_cons]

/-- Rolling back a push by name removes exactly the entry that was pushed. -/
theorem eraseUser_append_self {n : Bytes} {l : List UserInfo} {u : UserInfo}
    (h : n ∉ names l) (hu : u.name = n) : eraseUser n (l ++ [u]) = l := by
  rw [eraseUser, userIndex_append_self h hu, List.eraseIdx_append_of_length_le le_rfl]
  simp

def rename (b : Bytes) (m : Bytes) : Bytes := patch b offUserName (m ++ [0])

theorem msgFromAddr_rename {b m : Bytes} (h : offUserName ≤ b.length) :
    msgFromAddr (rename b m) = msgFromAddr b := by
  rw [msgFromAddr, rename, field_patch_before h (by simp)]
  rfl

/-- The received buffer, rewritten to `m`, is pushed to the send queue. -/
def Process.reply (s : Process) (m : Bytes) : Process :=
  { s with
    msg := m
    sendList := (s.sendList.push m).2
    owner := if s.sendList.sem < netMessageListMaxLength then .sendQueue else .handler }

/-- The name of the message is terminated inside the buffer. -/
def Readable (b : Bytes) : Prop := (0 : UInt8) ∈ b.drop offUserName

theorem readable_iff {b : Bytes} : (0 : UInt8) ∈ b.drop 36 ↔ Readable b := Iff.rfl

instance : DecidablePred Readable := fun _ => inferInstanceAs (Decidable (_ ∈ _))

theorem Readable.length {b : Bytes} (h : Readable b) : 37 ≤ b.length := by
  have hl := List.length_pos_of_mem h
  rw [List.length_drop] at hl
  simp at hl
  omega

theorem Readable.comparable {b : Bytes} (h : Readable b) (xs : List Bytes) : Comparable xs b :=
  .inl h

/-- A name that is found ends inside the buffer. -/
theorem Comparable.readable {b : Bytes} {xs : List Bytes} (h : Comparable xs b)
    (hm : msgUserName b ∈ xs) : Readable b := by
  rcases h with h | h
  · exact h
  · by_contra hr
    have hn := msgUserName_of_unterminated hr
    exact h _ hm (hn ▸ List.prefix_rfl)

def loginUser (b : Bytes) : UserInfo where
  addr := (msgFromAddr b).addr
  port := (msgFromAddr b).port
  name := msgUserName b

def announcement (junk : ℕ → UInt8) (b : Bytes) : Bytes :=
  updateMsg updateDownOffset (msgFromAddr (rename b serverName))
    (contextUpdate junk (msgUserName b) (msgFromAddr b))

def announcedUser (b : Bytes) : UserInfo where
  addr := (msgUserAddr b).addr
  port := (msgUserAddr b).port
  name := msgUserName b
  status := some .online

theorem groupable_announcement {junk : ℕ → UInt8} {b : Bytes}
    (h : (msgUserName b).length < usernameMaxLength) : Groupable (announcement junk b) := by
  have hc : CarriesAddr (announcement junk b) .update (msgUserName b) (msgFromAddr b) :=
    carriesAddr_updateMsg (zero_notMem_cstr b offUserName) h
  exact hc.toCarries.groupable

namespace Server

theorem wp_hatchMsgLogin (ho : s.owner = .handler) :
    wp (hatchMsgLogin .received) E Q s ↔
      if Readable s.msg ∧ (msgUserName s.msg).length < usernameMaxLength then
        if msgUserName s.msg ∈ names s.userList then
          if 42 ≤ s.msg.length then
            Q (-1) { s.reply (rename s.msg errorName) with userLock := s.userLock.cycle }
          else E
        else if 43 ≤ s.msg.length then
          if s.sendList.sem < netMessageListMaxLength then
            Q 0 { s.reply (rename s.msg serverName) with
              userList := s.userList ++ [loginUser s.msg]
              userLock := s.userLock.cycle
              sendList := (s.sendList.push (rename s.msg serverName)).2.pushAll
                (groupCopies (announcement s.junk s.msg)
                  ((s.userList ++ [loginUser s.msg]).drop 1))
              owner := .sendQueue
              misuse := true }
          else
            Q (-1) { s.reply (rename s.msg serverName) with
              userLock := s.userLock.cycle
              owner := .disposed }
        else E
      else E := by
  by_cases hr : Readable s.msg ∧ (msgUserName s.msg).length < usernameMaxLength
  · have hlen := hr.1.length
    have hn : (msgUserName s.msg).length < 32 := hr.2
    have h20 : 20 ≤ s.msg.length := by omega
    by_cases hm : msgUserName s.msg ∈ names s.userList
    · by_cases hq : s.sendList.sem < netMessageListMaxLength
      · simp [hatchMsgLogin, ho, Process.touched, Process.handOver, Process.reply, rename,
          readable_iff, hr.1, hn, h20, hm, hq]
      · simp [hatchMsgLogin, ho, Process.touched, Process.reply, rename, readable_iff, hr.1,
          hn, h20, hm, hq]
    · have hg : Groupable (updateMsg updateDownOffset
          (msgFromAddr (patch s.msg 36 (serverName ++ [0])))
          (contextUpdate s.junk (msgUserName s.msg) (msgFromAddr s.msg))) :=
        groupable_announcement hr.2
      have he : eraseUser (msgUserName s.msg) (s.userList ++ [⟨(msgFromAddr s.msg).addr,
          (msgFromAddr s.msg).port, msgUserName s.msg, none⟩]) = s.userList :=
        eraseUser_append_self hm rfl
      by_cases h43 : 43 ≤ s.msg.length
      · have hp : (patch s.msg 36 (serverName ++ [0])).length = s.msg.length :=
          length_patch (by simp; omega)
        by_cases hq : s.sendList.sem < netMessageListMaxLength
        · simp [hatchMsgLogin, hatchMsgUpdateDown, wp_hatchPushSendMsgGroup_fresh, ho,
            Process.touched, Process.handOver, Process.reply, rename, loginUser, announcement,
            readable_iff, hr.1, hn, h20, hm, hq, hp, h43, hg]
        · simp [hatchMsgLogin, ho, Process.touched, Process.handOver, Process.reply, rename,
            readable_iff, hr.1, hn, h20, hm, hq, h43, he]
      · simp [hatchMsgLogin, ho, Process.touched, readable_iff, hr.1, hn, h20, hm, h43]
  · rw [if_neg hr]
    by_cases hr1 : Readable s.msg
    · have hn : ¬ (msgUserName s.msg).length < 32 := fun h => hr ⟨hr1, h⟩
      simp [hatchMsgLogin, readable_iff, hr1, hn]
    · simp [hatchMsgLogin, readable_iff, hr1]

theorem wp_hatchMsgUpdate (ho : s.owner = .handler) :
    wp (hatchMsgUpdate .received) E Q s ↔
      if Comparable (names s.userList) s.msg then
        if msgUserName s.msg ∈ names s.userList then
          Q 0 { s.reply s.msg with userLock := s.userLock.cycle.leave }
        else if 42 ≤ s.msg.length then
          Q 0 { s.reply (rename s.msg errorName) with userLock := s.userLock.cycle }
        else E
      else E := by
  by_cases hq : s.sendList.sem < netMessageListMaxLength
  · simp [hatchMsgUpdate, ho, Process.touched, Process.handOver, Process.reply, rename, hq]
  · simp [hatchMsgUpdate, ho, Process.touched, Process.reply, rename, hq]

theorem wp_hatchMsgLogout (ho : s.owner = .handler) :
    wp (hatchMsgLogout .received) E Q s ↔
      if Comparable (names s.userList) s.msg then
        if msgUserName s.msg ∈ names s.userList then
          if msgISize s.msg ≤ s.msg.length ∧ eraseUser (msgUserName s.msg) s.userList ≠ [] ∧
              ((eraseUser (msgUserName s.msg) s.userList).drop 1 = [] ∨ Groupable s.msg) then
            Q 0 { s with
              userList := eraseUser (msgUserName s.msg) s.userList
              userLock := s.userLock.cycle.leave
              sendList := (s.sendList.push (s.msg.take (msgISize s.msg))).2.pushAll
                (groupCopies s.msg ((eraseUser (msgUserName s.msg) s.userList).drop 1))
              owner := .disposed }
          else E
        else Q 0 { s with userLock := s.userLock.cycle, owner := .disposed }
      else E := by
  by_cases hc : Comparable (names s.userList) s.msg
  · by_cases hm : msgUserName s.msg ∈ names s.userList
    · have hlen := (hc.readable hm).length
      have h4 : 4 ≤ s.msg.length := by omega
      simp [hatchMsgLogout, ho, Process.touched, Process.handOver,
        wp_hatchPushSendMsgGroup_received, hc, hm, h4, ite_and, Nat.one_le_iff_ne_zero]
    · simp [hatchMsgLogout, ho, Process.touched, Process.handOver, hc, hm]
  · simp [hatchMsgLogout, hc]

end Server

theorem ne_nil_of_getElem? {l : List UserInfo} {i : ℕ} {u : UserInfo} (h : l[i]? = some u) :
    l ≠ [] := by
  rintro rfl
  simp at h

namespace Client

section NoOwnEntry

variable (h : s.userList[1]? = none)
include h

theorem wp_hatchMsgLogin_none : wp (hatchMsgLogin .received) E Q s ↔ E := by
  simp [hatchMsgLogin, Process.touched, wp_hatchSetStatus, h]

theorem wp_hatchMsgUpdate_none : wp (hatchMsgUpdate .received) E Q s ↔ E := by
  simp [hatchMsgUpdate, wp_userAt, h]

theorem wp_hatchMsgText_none : wp (hatchMsgText .received) E Q s ↔ E := by
  simp [hatchMsgText, wp_userAt, h]

theorem wp_hatchMsgLogout_none (ho : s.owner = .handler) :
    wp (hatchMsgLogout .received) E Q s ↔
      if Comparable (names s.userList) s.msg then
        if msgUserName s.msg ∈ names s.userList then E
        else Q 0 { s with userLock := s.userLock.cycle, owner := .disposed }
      else E := by
  by_cases hm : msgUserName s.msg ∈ names s.userList
  · simp [hatchMsgLogout, Process.touched, wp_userAt, h, hm]
  · simp [hatchMsgLogout, ho, Process.touched, Process.handOver, hm]

end NoOwnEntry

theorem wp_hatchMsgLogin (ho : s.owner = .handler) {own : UserInfo}
    (h : s.userList[1]? = some own) :
    wp (hatchMsgLogin .received) E Q s ↔
      if Comparable [serverName] s.msg then
        Q 0 { s with
          userList := s.userList.set 1 { own with
            status := some (if msgUserName s.msg = serverName then .login else .null) }
          userLock := s.userLock.cycle
          startText := s.startText || decide (msgUserName s.msg = serverName) }
      else E := by
  have hl := ne_nil_of_getElem? h
  by_cases hn : msgUserName s.msg = serverName
  · simp [hatchMsgLogin, hatchStartText, ho, Process.touched, wp_hatchSetStatus, hl, h,
      hn]
  · simp [hatchMsgLogin, ho, Process.touched, wp_hatchSetStatus, hl, h, hn]

theorem wp_writeBackSyn (ho : s.owner = .handler) (a : SockAddrIn) (me : Endpoint) (own : Bytes)
    {R : Unit → Process → Prop} :
    wp (writeBackSyn a me own) E R s ↔
      if offUserAddr + sizeofSockAddrIn ≤ s.msg.length ∧ own.length < usernameMaxLength then
        R () { s with msg := backSynMsg s.msg a me own }
      else E := by
  by_cases h84 : 84 ≤ s.msg.length
  · have h1 : (patch s.msg 4 a.encode).length = s.msg.length := length_patch (by simp; omega)
    have h2 : (patch (patch s.msg 4 a.encode) 32 (leBytes 4 MsgType.backSyn.code)).length =
        s.msg.length := by
      rw [length_patch (by simp [h1]; omega), h1]
    have h3 : (patch (patch (patch s.msg 4 a.encode) 32 (leBytes 4 MsgType.backSyn.code)) 68
        (SockAddrIn.mk a.family me.2 me.1 a.zero).encode).length = s.msg.length := by
      rw [length_patch (by simp [h2]; omega), h2]
    have h20 : 20 ≤ s.msg.length := by omega
    have h36 : 36 ≤ s.msg.length := by omega
    by_cases hn : own.length < 32
    · have hn' : 36 + (own.length + 1) ≤ s.msg.length := by omega
      simp [writeBackSyn, ho, Process.touched, h1, h2, h3, h84, h20, h36, hn, hn', backSynMsg,
        backSynFields, assign]
    · simp [writeBackSyn, h84, h20, hn]
  · by_cases h20 : 20 ≤ s.msg.length
    · have h1 : (patch s.msg 4 a.encode).length = s.msg.length := length_patch (by simp; omega)
      by_cases h36 : 36 ≤ s.msg.length
      · have h2 : (patch (patch s.msg 4 a.encode) 32 (leBytes 4 MsgType.backSyn.code)).length =
            s.msg.length := by
          rw [length_patch (by simp [h1]; omega), h1]
        simp [writeBackSyn, Process.touched, h1, h2, h84, h20, h36]
      · simp [writeBackSyn, h1, h84, h20, h36]
    · simp [writeBackSyn, h84, h20]

theorem wp_hatchMsgUpdateOther (ho : s.owner = .handler) {own : UserInfo}
    (h : s.userList[1]? = some own) :
    wp (hatchMsgUpdateOther .received own) E Q s ↔
      if Comparable (names s.userList) s.msg then
        if msgUserName s.msg ∈ names s.userList then
          Q 1 { s with userLock := s.userLock.cycle.leave }
        else if Comparable [errorName] s.msg then
          if msgUserName s.msg = errorName then
            Q (-1) { s with userLock := s.userLock.cycle, owner := .disposed }
          else if offUserAddr + sizeofSockAddrIn ≤ s.msg.length ∧
              (msgUserName s.msg).length < usernameMaxLength ∧
              own.name.length < usernameMaxLength then
            Q (if s.sendList.sem < netMessageListMaxLength then 0 else -1)
              { s.reply (backSynMsg s.msg (msgUserAddr s.msg) (own.addr, own.port) own.name) with
                userList := s.userList ++ [announcedUser s.msg]
                userLock := s.userLock.cycle }
          else E
        else E
      else E := by
  by_cases hc : Comparable (names s.userList) s.msg
  · by_cases hm : msgUserName s.msg ∈ names s.userList
    · simp [hatchMsgUpdateOther, ho, Process.touched, hc, hm]
    · by_cases hr : Comparable [errorName] s.msg
      · by_cases he : msgUserName s.msg = errorName
        · rw [he] at hm
          simp [hatchMsgUpdateOther, ho, Process.touched, Process.handOver, hc, hr, hm, he]
        · have hi : (s.userList ++ [announcedUser s.msg])[1]? = some own := by
            rw [List.getElem?_append_left, h]
            exact (List.getElem?_eq_some_iff.mp h).1
          simp only [announcedUser] at hi
          by_cases h84 : 84 ≤ s.msg.length
          · by_cases hq : s.sendList.sem < netMessageListMaxLength
            · simp [hatchMsgUpdateOther, ho, Process.touched, Process.handOver, peerUser,
                wp_userAt, wp_writeBackSyn, Process.reply, announcedUser, hc, hr, hm, he, hi, hq,
                h84, ite_and]
            · simp [hatchMsgUpdateOther, ho, Process.touched, peerUser, wp_userAt,
                wp_writeBackSyn, Process.reply, announcedUser, hc, hr, hm, he, hi, hq, h84,
                ite_and]
          · simp [hatchMsgUpdateOther, ho, Process.touched, hc, hr, hm, he, h84]
      · simp [hatchMsgUpdateOther, Process.touched, hc, hr, hm]
  · simp [hatchMsgUpdateOther, hc]

theorem wp_hatchMsgBackSyn (ho : s.owner = .handler) :
    wp (hatchMsgBackSyn .received) E Q s ↔
      if Comparable (names s.userList) s.msg then
        if msgUserName s.msg ∈ names s.userList then
          Q 0 { s with userLock := s.userLock.cycle.leave, owner := .disposed }
        else if offUserAddr + sizeofSockAddrIn ≤ s.msg.length ∧
            (msgUserName s.msg).length < usernameMaxLength then
          Q 0 { s with
            userList := s.userList ++ [announcedUser s.msg]
            userLock := s.userLock.cycle }
        else E
      else E := by
  by_cases hm : msgUserName s.msg ∈ names s.userList
  · simp [hatchMsgBackSyn, ho, Process.touched, Process.handOver, hm]
  · simp [hatchMsgBackSyn, ho, Process.touched, peerUser, announcedUser, hm, ite_and]

theorem wp_hatchMsgLogout (ho : s.owner = .handler) {own : UserInfo}
    (h : s.userList[1]? = some own) :
    wp (hatchMsgLogout .received) E Q s ↔
      if Comparable (names s.userList) s.msg then
        if msgUserName s.msg ∈ names s.userList then
          if own.name = msgUserName s.msg then
            Q 0 { s with
              userList := s.userList.set 1 { own with status := some .null }
              userLock := s.userLock.cycle.leave
              owner := .disposed
              runnerEnd := true }
          else
            Q 0 { s with
              userList := eraseUser (msgUserName s.msg) s.userList
              userLock := s.userLock.cycle.leave
              owner := .disposed }
        else Q 0 { s with userLock := s.userLock.cycle, owner := .disposed }
      else E := by
  have hl := ne_nil_of_getElem? h
  by_cases hm : msgUserName s.msg ∈ names s.userList
  · simp [hatchMsgLogout, hatchServicesEnd, ho, Process.touched, Process.handOver, wp_userAt,
      wp_hatchSetStatus, hl, h, hm]
  · simp [hatchMsgLogout, ho, Process.touched, Process.handOver, hm]

theorem wp_hatchMsgUpdate_login (ho : s.owner = .handler) {own : UserInfo}
    (h : s.userList[1]? = some own) (hs : own.status = some .login) :
    wp (hatchMsgUpdate .received) E Q s ↔
      if Comparable [own.name] s.msg then
        Q 0 { s with
          userList := s.userList.set 1 { own with
            status := some (if own.name = msgUserName s.msg then .online else .null) }
          userLock := s.userLock.cycle
          owner := .disposed }
      else E := by
  have hl := ne_nil_of_getElem? h
  by_cases hn : own.name = msgUserName s.msg
  · simp [hatchMsgUpdate, ho, Process.touched, Process.handOver, wp_userAt, wp_hatchSetStatus, hl,
      h, hs, hn]
  · simp [hatchMsgUpdate, ho, Process.touched, Process.handOver, wp_userAt, wp_hatchSetStatus, hl,
      h, hs, hn]

theorem wp_hatchMsgUpdate_active (ho : s.owner = .handler) {own : UserInfo}
    (h : s.userList[1]? = some own)
    (hs : own.status = some .online ∨ own.status = some .hide ∨ own.status = some .busy) :
    wp (hatchMsgUpdate .received) E Q s ↔ wp (hatchMsgUpdateOther .received own) E Q s := by
  have hl := ne_nil_of_getElem? h
  have hcycle : wp (hatchMsgUpdate .received) E Q s ↔
      wp (hatchMsgUpdateOther .received own) E Q { s with userLock := s.userLock.cycle } := by
    rcases hs with hs | hs | hs <;> simp [hatchMsgUpdate, wp_userAt, hl, h, hs]
  rw [hcycle, wp_hatchMsgUpdateOther ho h]
  simp [wp_hatchMsgUpdateOther, ho, h, Process.reply]

theorem wp_hatchMsgUpdate_idle (ho : s.owner = .handler) {own : UserInfo}
    (h : s.userList[1]? = some own) (hs : own.status = some .null ∨ own.status = none) :
    wp (hatchMsgUpdate .received) E Q s ↔
      Q 0 { s with userLock := s.userLock.cycle, owner := .disposed } := by
  have hl := ne_nil_of_getElem? h
  rcases hs with hs | hs
  · simp [hatchMsgUpdate, ho, Process.handOver, wp_userAt, hl, h, hs]
  · simp [hatchMsgUpdate, ho, Process.handOver, wp_userAt, hl, h, hs]

def updateRequest (s : Process) (server : UserInfo) : Bytes :=
  updateMsg updateUpOffset (localSockAddr s.junk (server.addr, server.port))
    (contextUpdate s.junk (msgUserName s.msg) (msgFromAddr s.msg))

theorem wp_hatchMsgUpdateUp (ho : s.owner = .handler) :
    wp (hatchMsgUpdateUp .received) E Q s ↔
      if Readable s.msg ∧ (msgUserName s.msg).length < usernameMaxLength then
        match s.userList[userIndex serverName s.userList]? with
        | some server =>
            Q (if s.sendList.sem < netMessageListMaxLength then 0 else -1)
              { s with
                userLock := s.userLock.cycle
                sendList := (s.sendList.push (updateRequest s server)).2
                owner := .disposed }
        | none => E
      else E := by
  by_cases hr : Readable s.msg
  · have hlen := hr.length
    have h20 : 20 ≤ s.msg.length := by omega
    cases hu : s.userList[userIndex serverName s.userList]? with
    | none => simp [hatchMsgUpdateUp, ho, Process.touched, wp_userAt, readable_iff, hr, h20, hu]
    | some server =>
        by_cases hq : s.sendList.sem < netMessageListMaxLength
        · simp [hatchMsgUpdateUp, updateRequest, ho, Process.touched, Process.handOver, wp_userAt,
            readable_iff, hr, h20, hu, hq]
        · simp [hatchMsgUpdateUp, updateRequest, ho, Process.touched, Process.handOver, wp_userAt,
            readable_iff, hr, h20, hu, hq]
  · simp [hatchMsgUpdateUp, readable_iff, hr]

theorem wp_hatchMsgText (ho : s.owner = .handler) {own : UserInfo}
    (h : s.userList[1]? = some own) :
    wp (hatchMsgText .received) E Q s ↔
      if Comparable (names s.userList) s.msg then
        if msgUserName s.msg ∈ names s.userList then
          if msgUserName s.msg = own.name then
            if s.userList.drop 2 = [] ∨ Groupable s.msg then
              Q 0 { s with
                userLock := s.userLock.cycle.leave
                sendList := s.sendList.pushAll (groupCopies s.msg (s.userList.drop 2))
                owner := .disposed }
            else E
          else
            match s.userList[userIndex (msgUserName s.msg) s.userList]? with
            | some u =>
                if u.status = some .hide ∨ u.status = some .online ∨ u.status = some .busy then
                  if (0 : UInt8) ∈ s.msg.drop offMsgText then
                    Q 1 { s with
                      userList := if u.status = some .hide
                        then s.userList.set (userIndex (msgUserName s.msg) s.userList)
                          { u with status := some .online }
                        else s.userList
                      userLock := s.userLock.cycle.leave
                      owner := .disposed }
                  else E
                else Q 1 { s with userLock := s.userLock.cycle.leave, owner := .disposed }
            | none => E
        else wp (hatchMsgUpdateUp .received) E Q s
      else E := by
  have hl := ne_nil_of_getElem? h
  by_cases hr : Comparable (names s.userList) s.msg
  · by_cases hm : msgUserName s.msg ∈ names s.userList
    · by_cases hn : msgUserName s.msg = own.name
      · have h2 : 2 ≤ s.userList.length := (List.getElem?_eq_some_iff.mp h).1
        rw [hn] at hm
        simp [hatchMsgText, ho, Process.touched, wp_userAt, wp_hatchPushSendMsgGroup_received,
          hl, h, hr, hm, hn, h2]
      · cases hu : s.userList[userIndex (msgUserName s.msg) s.userList]? with
        | none =>
            simp [hatchMsgText, Process.touched, wp_userAt, hl, h, hr, hm, hn, hu]
        | some u =>
            rcases hs : u.status with _ | _ | _ | _ | _ | _ <;>
              simp [hatchMsgText, ho, Process.touched, Process.handOver, wp_userAt,
                wp_hatchSetStatus, hl, h, hr, hm, hn, hu, hs]
    · rw [wp_hatchMsgUpdateUp ho]
      simp [hatchMsgText, ho, Process.touched, wp_userAt, wp_hatchMsgUpdateUp, updateRequest,
        hl, h, hr, hm]
  · simp [hatchMsgText, wp_userAt, hl, h, hr]

end Client

section Dispatch

variable {P : Protocol} {b : Bytes}

def Process.received (s : Process) (b : Bytes) : Process :=
  { s with msg := b, owner := .handler, misuse := false }

theorem wp_hatchMsgProc :
    wp (hatchMsgProc P b) E Q s ↔
      if offProtocolType + 4 ≤ b.length then
        match msgProtocolType b with
        | .chat =>
            if offMsgType + 4 ≤ b.length then
              wp (dispatchChat P .received (msgMsgType b)) E Q (s.received b)
            else E
        | .lmt => Q 0 (s.received b)
        | .null | .other _ => Q (-1) (s.received b)
      else E := by
  simp only [hatchMsgProc, receive, wp_bind, wp_modify, wp_readProtocolType, Process.touched]
  cases msgProtocolType b <;> simp [dispatch, Process.received, Process.touched]

end Dispatch

end Hatch.Net
