import Hatch.NetEffect
import Hatch.TransitionSystem

/-!
# The user list over runs of messages

A process handles arbitrary buffers one after the other; before each of them the
send queue may have any content, and a run ends where a handler faults. The list
of the server changes only by appending a new name or erasing one, so its names
stay distinct. Entries 0 and 1 keep their places unless a Logout names `server`.
-/

namespace Hatch.Net

open ByteLayout FaultProgram Prog TransitionSystem

/-- One message, handled with the send queue as the other threads have left it. -/
def messageStep (P : Protocol) (s : Process) (m : Bytes × MsgQueue) : Option Process :=
  match hatchMsgProc P m.1 { s with sendList := m.2 } with
  | .ok (_, t) => some t
  | .error _ => none

def messages (P : Protocol) (start : Process) : Machine Process (Bytes × MsgQueue) where
  init s := s = start
  step := messageStep P

theorem messageStep_run {P : Protocol} {s t : Process} {m : Bytes × MsgQueue}
    (h : messageStep P s m = some t) :
    ∃ r, hatchMsgProc P m.1 { s with sendList := m.2 } = .ok (r, t) := by
  unfold messageStep at h
  split at h
  · rename_i r u hr
    exact ⟨r, Option.some.inj h ▸ hr⟩
  · cases h

theorem messageStep_elim {P : Protocol} {s t : Process} {m : Bytes × MsgQueue}
    {R : Process → Prop} (h : messageStep P s m = some t)
    (hw : wp (hatchMsgProc P m.1) True (fun _ t => R t) { s with sendList := m.2 }) : R t := by
  obtain ⟨r, hr⟩ := messageStep_run h
  exact wp_true_of_run hr hw

/-- The first message of a run, given that it is handled. -/
theorem messages_one_of_isSome (P : Protocol) (start : Process) (m : Bytes × MsgQueue)
    (G : Process → Bytes × MsgQueue → Prop) (hg : G start m)
    (h : (messageStep P start m).isSome) :
    ∃ t, messageStep P start m = some t ∧ Reaches (messages P start) G t := by
  obtain ⟨t, ht⟩ := Option.isSome_iff_exists.mp h
  exact ⟨t, ht, .step (.init rfl) hg ht⟩

theorem server_effect {s t : Process} {m : Bytes × MsgQueue}
    (h : messageStep serverProtocol s m = some t) :
    ServerEffect m.1 s.userList s.userLock m.2.sem t.userList t.userLock t.owner t.misuse :=
  messageStep_elim h (wp_server_effect m.1 { s with sendList := m.2 })

theorem client_effect {s t : Process} {m : Bytes × MsgQueue}
    (h : messageStep clientProtocol s m = some t) :
    ClientEffect m.1 s.userList s.userLock m.2.sem t.userList t.userLock t.owner :=
  (messageStep_elim h (wp_client_effect m.1 { s with sendList := m.2 })).1

def serverStart (junk : ℕ → UInt8) : Process :=
  { Process.fresh junk with userList := [serverUser] }

theorem hatchInitialize_server (junk : ℕ → UInt8) :
    hatchInitialize 0 (Process.fresh junk) = .ok (0, serverStart junk) := rfl

def startClient (a : SockAddrIn) (name : Option Bytes) : Handler ℤ := do
  let _ ← hatchInitialize 1
  hatchSetOwnerAddr a
  hatchClientLogin name

def ownUser (a : SockAddrIn) (n : Bytes) : UserInfo :=
  { clientInitUser with addr := a.addr, port := a.port, name := n }

def clientStart (junk : ℕ → UInt8) (a : SockAddrIn) (n : Bytes) : Process :=
  { Process.fresh junk with
    userList := [serverUser, ownUser a n]
    sendList := ⟨1, [requestMsg junk .login n], 0⟩ }

/-- Without a name the client logs in under the initial one. -/
theorem startClient_run (junk : ℕ → UInt8) (a : SockAddrIn) (name : Option Bytes)
    (h : ∀ n ∈ name, n.length < usernameMaxLength) :
    startClient a name (Process.fresh junk) =
      .ok (0, clientStart junk a (name.getD clientInitName)) := by
  have hw : wp (startClient a name) False
      (fun r t => r = 0 ∧ t = clientStart junk a (name.getD clientInitName))
      (Process.fresh junk) := by
    cases name with
    | none =>
        simp only [startClient, hatchInitialize, hatchSetOwnerAddr, hatchClientLogin,
          hatchClientRequest]
        simp [wp_userAt, Process.fresh, names, serverUser, clientInitUser]
        exact ⟨by decide, by decide, rfl⟩
    | some n =>
        have hn : n.length < 32 := h n rfl
        simp only [startClient, hatchInitialize, hatchSetOwnerAddr, hatchClientLogin,
          hatchClientRequest, hatchSetNameAt]
        simp [wp_userAt, hn, Process.fresh, names, serverUser, clientInitUser]
        exact ⟨by decide, by decide, rfl⟩
  obtain ⟨r, t, hr, rfl, rfl⟩ := run_of_wp_false hw
  exact hr

section Unique

variable {b : Bytes} {l l' : List UserInfo} {k k' : CriticalSection} {q : ℕ} {o : Owner} {m : Bool}

theorem names_eraseUser_sublist (n : Bytes) (l : List UserInfo) :
    (names (eraseUser n l)).Sublist (names l) :=
  (List.eraseIdx_sublist l (userIndex n l)).map UserInfo.name

theorem ServerEffect.nodup (h : ServerEffect b l k q l' k' o m) (hl : (names l).Nodup) :
    (names l').Nodup := by
  cases h with
  | loginAdded hc hn hq =>
      rw [names, List.map_append, List.nodup_append]
      refine ⟨hl, List.pairwise_singleton _ _, ?_⟩
      intro x hx y hy he
      have hy' : y = msgUserName b := by simpa [loginUser] using hy
      exact hn (hy' ▸ he ▸ hx)
  | logoutKnown hc hn hne => exact hl.sublist (names_eraseUser_sublist _ _)
  | _ => exact hl

theorem ServerEffect.login_adds (h : ServerEffect b l k q l' k' o m) (hc : IsChat b .login) :
    l' = l ∨ ∃ u, l' = l ++ [u] := by
  cases h with
  | loginAdded hl hn hq => exact .inr ⟨_, rfl⟩
  | logoutKnown ho hn hne => exact absurd (hc.unique ho) (by simp)
  | _ => exact .inl rfl

theorem ServerEffect.logout_erases (h : ServerEffect b l k q l' k' o m) (hc : IsChat b .logout) :
    l' = l ∨ ∃ i, l' = l.eraseIdx i := by
  cases h with
  | loginAdded hl hn hq => exact absurd (hc.unique hl) (by simp)
  | logoutKnown ho hn hne => exact .inr ⟨_, rfl⟩
  | _ => exact .inl rfl

theorem ServerEffect.keeps (h : ServerEffect b l k q l' k' o m) (hi : ¬ IsChat b .login)
    (ho : ¬ IsChat b .logout) : l' = l := by
  cases h with
  | loginAdded hl hn hq => exact absurd hl hi
  | logoutKnown hl hn hne => exact absurd hl ho
  | _ => rfl

end Unique

theorem server_names_nodup {junk : ℕ → UInt8} {s : Process}
    (h : Reachable (messages serverProtocol (serverStart junk)) s) :
    (names s.userList).Nodup := by
  refine Reaches.invariant (I := fun s => (names s.userList).Nodup) ?_ ?_ h
  · rintro _ rfl
    exact List.pairwise_singleton _ _
  · intro s m t hs _ he
    exact (server_effect he).nodup hs

theorem server_roster_unique {junk : ℕ → UInt8} {s : Process}
    (h : Reachable (messages serverProtocol (serverStart junk)) s) :
    (names s.userList).Nodup ∧
      ∀ m t, messageStep serverProtocol s m = some t →
        (IsChat m.1 .login → t.userList = s.userList ∨ ∃ u, t.userList = s.userList ++ [u]) ∧
        (IsChat m.1 .logout →
          t.userList = s.userList ∨ ∃ i, t.userList = s.userList.eraseIdx i) ∧
        (¬ IsChat m.1 .login → ¬ IsChat m.1 .logout → t.userList = s.userList) := by
  refine ⟨server_names_nodup h, ?_⟩
  intro m t he
  have hs := server_effect he
  exact ⟨hs.login_adds, hs.logout_erases, hs.keeps⟩

/-- After `bob` has logged in the names are distinct. -/
theorem server_roster_unique_bob :
    ∃ s, Reachable (messages serverProtocol (serverStart (fun _ => 0))) s ∧
      names s.userList = [serverName, bobName.bytes] ∧ (names s.userList).Nodup := by
  have hr : ∃ s, Reachable (messages serverProtocol (serverStart (fun _ => 0))) s ∧
      names s.userList = [serverName, bobName.bytes] :=
    Reaches.exists_of_run (.init rfl) [(arrivingRequest .login bobName.bytes, .empty)]
      (by decide +kernel)
  obtain ⟨s, hs, hn⟩ := hr
  exact ⟨s, hs, hn, (server_roster_unique hs).1⟩

/-- A Logout in the name of the server. -/
def LogsOutServer (b : Bytes) : Prop := IsChat b .logout ∧ msgUserName b = serverName

instance (b : Bytes) : Decidable (LogsOutServer b) := inferInstanceAs (Decidable (_ ∧ _))

/-- The same user at the same address; only the status may differ. -/
def UserInfo.Same (u v : UserInfo) : Prop := u.name = v.name ∧ u.addr = v.addr ∧ u.port = v.port

theorem eraseUser_cons_of_ne {n : Bytes} {u : UserInfo} {l : List UserInfo} (h : u.name ≠ n) :
    eraseUser n (u :: l) = u :: eraseUser n l := by
  simp [eraseUser, userIndex, List.findIdx_cons, h]

def ServerSlot (l : List UserInfo) : Prop := ∃ rest, l = serverUser :: rest

/-- Entry 0 is the server's and entry 1 is that of `own`. -/
def ClientSlots (own : UserInfo) (l : List UserInfo) : Prop :=
  ∃ u v rest, l = u :: v :: rest ∧ u.Same serverUser ∧ v.Same own

section Slots

variable {b : Bytes} {l l' : List UserInfo} {k k' : CriticalSection} {q : ℕ} {o : Owner} {m : Bool}
  {own : UserInfo}

theorem ServerEffect.serverSlot (h : ServerEffect b l k q l' k' o m) (hb : ¬ LogsOutServer b)
    (hl : ServerSlot l) : ServerSlot l' := by
  obtain ⟨rest, rfl⟩ := hl
  cases h with
  | loginAdded hc hn hq => exact ⟨_, rfl⟩
  | logoutKnown hc hn hne =>
      have hs : serverUser.name ≠ msgUserName b := fun he => hb ⟨hc, he.symm⟩
      exact ⟨_, eraseUser_cons_of_ne hs⟩
  | _ => exact ⟨_, rfl⟩

theorem clientSlots_set {i : ℕ} {u : UserInfo} {st : Option UserStatus} (hi : l[i]? = some u)
    (hl : ClientSlots own l) : ClientSlots own (l.set i { u with status := st }) := by
  obtain ⟨x, y, rest, rfl, hx, hy⟩ := hl
  match i with
  | 0 =>
      have hu : x = u := by simpa using hi
      subst hu
      exact ⟨_, y, rest, rfl, hx, hy⟩
  | 1 =>
      have hu : y = u := by simpa using hi
      subst hu
      exact ⟨x, _, rest, rfl, hx, hy⟩
  | j + 2 => exact ⟨x, y, _, rfl, hx, hy⟩

theorem clientSlots_append {r : List UserInfo} (hl : ClientSlots own l) :
    ClientSlots own (l ++ r) := by
  obtain ⟨x, y, rest, rfl, hx, hy⟩ := hl
  exact ⟨x, y, rest ++ r, rfl, hx, hy⟩

theorem clientSlots_erase {n : Bytes} {v : UserInfo} (hi : l[1]? = some v) (hv : v.name ≠ n)
    (hs : n ≠ serverName) (hl : ClientSlots own l) : ClientSlots own (eraseUser n l) := by
  obtain ⟨x, y, rest, rfl, hx, hy⟩ := hl
  have hu : y = v := by simpa using hi
  subst hu
  have hxn : x.name ≠ n := fun he => hs (he.symm.trans hx.1)
  refine ⟨x, y, eraseUser n rest, ?_, hx, hy⟩
  rw [eraseUser_cons_of_ne hxn, eraseUser_cons_of_ne hv]

theorem ClientEffect.clientSlots (h : ClientEffect b l k q l' k' o) (hb : ¬ LogsOutServer b)
    (hl : ClientSlots own l) : ClientSlots own l' := by
  cases h with
  | login hc v hi st => exact clientSlots_set hi hl
  | textRaised hc hn i u hi => exact clientSlots_set hi hl
  | updateOwn hc v hi hs st => exact clientSlots_set hi hl
  | updateAdded hc v hi hs hn he => exact clientSlots_append hl
  | backSynAdded hc hn => exact clientSlots_append hl
  | logoutOwn hc hn v hi he => exact clientSlots_set hi hl
  | logoutOther hc hn v hi he =>
      exact clientSlots_erase hi he (fun hs => hb ⟨hc, hs⟩) hl
  | _ => exact hl

end Slots

/-- As long as no Logout names `server`, entry 0 stays the entry of the server on both
sides, and entry 1 stays the client's own. -/
theorem reserved_slots_kept (junk : ℕ → UInt8) (s : Process) :
    (Reaches (messages serverProtocol (serverStart junk)) (fun _ m => ¬ LogsOutServer m.1) s →
      ServerSlot s.userList) ∧
    ∀ a n,
      Reaches (messages clientProtocol (clientStart junk a n)) (fun _ m => ¬ LogsOutServer m.1) s →
        ClientSlots (ownUser a n) s.userList := by
  constructor
  · intro h
    refine Reaches.invariant (I := fun s => ServerSlot s.userList) ?_ ?_ h
    · rintro _ rfl
      exact ⟨[], rfl⟩
    · intro s m t hs hm he
      exact (server_effect he).serverSlot hm hs
  · intro a n h
    refine Reaches.invariant (I := fun s => ClientSlots (ownUser a n) s.userList) ?_ ?_ h
    · rintro _ rfl
      exact ⟨serverUser, ownUser a n, [], rfl, ⟨rfl, rfl, rfl⟩, ⟨rfl, rfl, rfl⟩⟩
    · intro s m t hs hm he
      exact (client_effect he).clientSlots hm hs

/-- The server and the client `bob` after a Login of `bob`. -/
theorem reserved_slots_kept_bob :
    ∃ s t,
      messageStep serverProtocol (serverStart (fun _ => 0))
        (arrivingRequest .login bobName.bytes, .empty) = some s ∧ ServerSlot s.userList ∧
      messageStep clientProtocol
        (clientStart (fun _ => 0) (localSockAddr (fun _ => 0) clientEndpoint) bobName.bytes)
        (arrivingRequest .login serverName, .empty) = some t ∧
      ClientSlots (ownUser (localSockAddr (fun _ => 0) clientEndpoint) bobName.bytes)
        t.userList := by
  obtain ⟨s, hs, h1⟩ := messages_one_of_isSome serverProtocol (serverStart (fun _ => 0))
    (arrivingRequest .login bobName.bytes, .empty) (fun _ m => ¬ LogsOutServer m.1)
    (by decide +kernel) (by decide +kernel)
  obtain ⟨t, ht, h2⟩ := messages_one_of_isSome clientProtocol
    (clientStart (fun _ => 0) (localSockAddr (fun _ => 0) clientEndpoint) bobName.bytes)
    (arrivingRequest .login serverName, .empty) (fun _ m => ¬ LogsOutServer m.1)
    (by decide +kernel) (by decide +kernel)
  exact ⟨s, t, hs, (reserved_slots_kept _ s).1 h1, ht, (reserved_slots_kept _ t).2 _ _ h2⟩

/-- A Logout that names `server` takes entry 0 away, on the server and on a client. -/
theorem server_logout_erases_slot :
    (run (messages serverProtocol (serverStart (fun _ => 0))) (serverStart (fun _ => 0))
      [(arrivingRequest .login bobName.bytes, .empty),
        (arrivingRequest .logout serverName, .empty)]).map (fun s => names s.userList) =
      some [bobName.bytes] ∧
    (messageStep clientProtocol
      (clientStart (fun _ => 0) (localSockAddr (fun _ => 0) clientEndpoint) bobName.bytes)
      (arrivingRequest .logout serverName, .empty)).map (fun s => names s.userList) =
      some [bobName.bytes] := by
  decide +kernel

end Hatch.Net
