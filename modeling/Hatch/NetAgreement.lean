import Hatch.NetRefinement
import Hatch.RosterGhost

/-!
# Agreement of the user lists

With reliable delivery, two clients that the server lists list each other once all
messages are handled. A client may go on listing a user that has left, because the
BackSyn of that user can be handled after its Logout; `Timely` excludes this. A
client loses its status when the announcement of another user overtakes its own;
`HearsOwn` excludes this, and then the status survives any order and any loss.
-/

namespace Hatch.Net

open ByteLayout TransitionSystem

variable {ι : Type}

/-- A client that handles a BackSyn lists its sender already, or the server does, or the Logout
of the sender is still on the way; it does not matter when the client has left itself. -/
def Timely (cfg : Config ι) (s : System ι) : SystemAction ι → Prop
  | .handle (some c) => ∀ b ∈ (s.recv (some c)).head?, IsChat b .backSyn →
      msgUserName b ∈ names (s.proc (some c)).userList ∨
      msgUserName b ∈ names (s.proc none).userList ∨
      (∃ m ∈ s.pipe cfg none (some c), IsChat m .logout ∧ msgUserName m = msgUserName b) ∨
      (cfg.name c).bytes ∉ names (s.proc none).userList
  | _ => True

/-- A client that waits for its own announcement handles no other. -/
def HearsOwn (s : System ι) : SystemAction ι → Prop
  | .handle (some c) => ∀ b ∈ (s.recv (some c)).head?, ∀ own ∈ (s.proc (some c)).userList[1]?,
      IsChat b .update → own.status = some .login → msgUserName b = own.name
  | _ => True

instance (cfg : Config ι) (s : System ι) (a : SystemAction ι) : Decidable (Timely cfg s a) :=
  match a with
  | .handle (some c) => inferInstanceAs (Decidable (∀ b ∈ (s.recv (some c)).head?,
      IsChat b .backSyn → _ ∨ _ ∨ _ ∨ _))
  | .handle none | .memory .. | .login _ | .logout _ | .servicesEnd _ | .transmit _ | .deliver ..
  | .discard .. | .abandon _ | .lose _ => .isTrue trivial

instance (s : System ι) (a : SystemAction ι) : Decidable (HearsOwn s a) :=
  match a with
  | .handle (some c) => inferInstanceAs (Decidable (∀ b ∈ (s.recv (some c)).head?,
      ∀ own ∈ (s.proc (some c)).userList[1]?, IsChat b .update → own.status = some .login →
        msgUserName b = own.name))
  | .handle none | .memory .. | .login _ | .logout _ | .servicesEnd _ | .transmit _ | .deliver ..
  | .discard .. | .abandon _ | .lose _ => .isTrue trivial

section Guards

variable {cfg : Config ι} {s : System ι} {t : Roster.State ι} {a : SystemAction ι}
  {k : Roster.Action ι}

theorem Carries.isChat {b n : Bytes} {ty : MsgType} (h : Carries b ty n) : IsChat b ty :=
  ⟨h.protocolType, h.msgType⟩

theorem Answer.reliable (h : Answer cfg s t a k) : Roster.Reliable t k := by
  cases h <;> trivial

/-- A Logout on the way to a client is one of the notices. -/
theorem Flows.logout_mem {P : Option ι → Option ι → List Bytes} {c d : ι} {m : Bytes}
    (h : Flows cfg P t) (hm : m ∈ P none (some c)) (hc : IsChat m .logout)
    (hd : msgUserName m = cfg.bytes d) : .logout d ∈ t.down c := by
  obtain ⟨l, hl, hs⟩ := forall₂_sublist (h.down c) (List.singleton_sublist.mpr hm)
  obtain ⟨k, r, hk, -, rfl⟩ := List.forall₂_cons_left_iff.mp hl
  have hmem : k ∈ t.down c := hs.subset (List.mem_cons_self ..)
  cases k with
  | reply => cases hc.unique (Carries.isChat hk)
  | error => cases hc.unique (Carries.isChat hk)
  | update e =>
      obtain ⟨x, hx, -⟩ := hk
      cases hc.unique hx.toCarries.isChat
  | logout e =>
      have he : e = d := cfg.bytes_injective ((Carries.name hk).symm.trans hd)
      exact he ▸ hmem

theorem Answer.timely (ha : Answer cfg s t a k) (h : Simulates cfg s t) (hB : Roster.Basic t)
    (hg : Timely cfg s a) : Roster.Timely t k := by
  cases ha with
  | greet e c b hb hm hp =>
      obtain ⟨x, hx⟩ := hm
      have hcalled := hB.called c (hB.peer e c hp).2
      have hg' := hg b hb hx.toCarries.isChat
      rw [hx.name] at hg'
      rcases hg' with hl | hl | ⟨m, hm, hmc, hmn⟩ | hl
      · rcases (h.mem_client hcalled).mp hl with rfl | hk
        · by_cases hc : e ∈ t.roster
          · exact .inr (.inl hc)
          · exact .inr (.inr (.inr hc))
        · exact .inl hk
      · exact .inr (.inl (h.mem_server.mp hl))
      · exact .inr (.inr (.inl (h.2.logout_mem hm hmc hmn)))
      · exact .inr (.inr (.inr (fun hc => hl (h.mem_server.mpr hc))))
  | _ => trivial

theorem Answer.hearsOwn (ha : Answer cfg s t a k) (h : Simulates cfg s t) (hB : Roster.Basic t)
    (hg : HearsOwn s a) : Roster.HearsOwn t k := by
  cases ha with
  | hear c b m hb hm hd =>
      intro hs d hu
      obtain rfl : m = .update d := Option.some.inj (hd.symm.trans hu)
      obtain ⟨r, hr⟩ := List.head?_eq_some_iff.mp hd
      have hv := h.1.client c
      rw [hB.called c (hB.seen_of_head hr), hs] at hv
      obtain ⟨own, hi, ho, hst⟩ := hv.exists_own
      rw [if_pos rfl] at ho
      obtain ⟨x, hx, -⟩ := hm
      have hn := hg b hb own hi hx.toCarries.isChat hst
      exact cfg.bytes_injective ((hx.name.symm.trans hn).trans ho)
  | _ => trivial

end Guards

def aliceName : UserName := ⟨[0x61, 0x6c, 0x69, 0x63, 0x65], by decide, by decide⟩

def pair : Config (Fin 2) where
  name c := if c = 0 then aliceName else bobName
  endpoint c := if c = 0 then (0x0a02a8c0, 0x394f) else (0x0b02a8c0, 0x394f)
  ownerAddr c := sockAddr (if c = 0 then (0x0a02a8c0, 0x394f) else (0x0b02a8c0, 0x394f))
  name_injective := by decide
  name_ordinary := by decide
  endpoint_injective := by decide
  endpoint_ne_server := by decide

/-- Alice logs in, then Bob, and Alice is about to send her BackSyn to Bob. -/
def bothLogin : List (SystemAction (Fin 2)) :=
  [.login 0, .transmit (some 0), .deliver none 0, .handle none, .transmit none, .transmit none,
    .deliver (some 0) 0, .handle (some 0), .deliver (some 0) 0, .handle (some 0),
    .login 1, .transmit (some 1), .deliver none 0, .handle none,
    .transmit none, .transmit none, .transmit none, .deliver (some 1) 0, .handle (some 1),
    .deliver (some 0) 0, .handle (some 0), .deliver (some 1) 0, .handle (some 1)]

/-- Both are logged in and all messages are handled. -/
theorem both_joined : ∃ s, Reaches (chat pair) (fun s a => Reliable pair s a ∧ Timely pair s a ∧
      HearsOwn s a) s ∧ s.Quiescent ∧
    names (s.proc none).userList = [serverName, aliceName.bytes, bobName.bytes] ∧
    (s.proc (some 1)).runnerEnd = false ∧ s.logoutCalled 1 = false ∧
    (∃ own, (s.proc (some 1)).userList[1]? = some own) ∧
    ∃ u ∈ (s.proc (some 1)).userList.drop 2, u.name = aliceName.bytes := by
  simp only [← Option.isSome_iff_exists]
  exact Reaches.exists_of_run (.init rfl)
    (bothLogin ++ [.transmit (some 0), .deliver (some 1) 0, .handle (some 1)]) (by decide +kernel)

section Agreement

variable [DecidableEq ι] {s : System ι}

/-- Once all messages are handled, two clients that the server lists list each other. -/
theorem roster_complete (cfg : Config ι) (h : Reaches (chat cfg) (Reliable cfg) s)
    (hq : s.Quiescent) {a b : ι} (hab : a ≠ b)
    (ha : (cfg.name a).bytes ∈ names (s.proc none).userList)
    (hb : (cfg.name b).bytes ∈ names (s.proc none).userList) :
    (cfg.name b).bytes ∈ names (s.proc (some a)).userList ∧
      (cfg.name a).bytes ∈ names (s.proc (some b)).userList := by
  obtain ⟨t, ht, hs⟩ := reaches_roster (H := Roster.Reliable)
    (fun _ _ _ _ _ _ _ hk => hk.reliable) (fun _ _ _ _ _ _ hg hr => hr hg) h
  have hB := Roster.basic_of_reaches ht
  have hquiet := hs.quiet hq
  rw [hs.mem_server] at ha hb
  constructor
  · rw [hs.mem_client (hB.called a (hB.roster a ha))]
    exact .inr (Roster.known_of_quiet ht hquiet hab ha hb)
  · rw [hs.mem_client (hB.called b (hB.roster b hb))]
    exact .inr (Roster.known_of_quiet ht hquiet hab.symm hb ha)

theorem roster_complete_pair : ∃ s, Reaches (chat pair) (Reliable pair) s ∧ s.Quiescent ∧
    aliceName.bytes ∈ names (s.proc none).userList ∧ bobName.bytes ∈ names (s.proc none).userList ∧
    bobName.bytes ∈ names (s.proc (some 0)).userList ∧
    aliceName.bytes ∈ names (s.proc (some 1)).userList := by
  obtain ⟨s, hs, hq, hl, -⟩ := both_joined
  have hr : Reaches (chat pair) (Reliable pair) s := hs.mono (fun _ _ h => h.1)
  have ha : aliceName.bytes ∈ names (s.proc none).userList := by simp [hl]
  have hb : bobName.bytes ∈ names (s.proc none).userList := by simp [hl]
  exact ⟨s, hr, hq, ha, hb, roster_complete pair hr hq (a := 0) (b := 1) (by decide) ha hb⟩

/-- Once all messages are handled, a running client lists no user that the server does not. -/
theorem no_ghosts (cfg : Config ι)
    (h : Reaches (chat cfg) (fun s a => Reliable cfg s a ∧ Timely cfg s a) s) (hq : s.Quiescent)
    {c : ι} (hc : (s.proc (some c)).runnerEnd = false) {u : UserInfo}
    (hu : u ∈ (s.proc (some c)).userList.drop 2) : u.name ∈ names (s.proc none).userList := by
  obtain ⟨t, ht, hs⟩ := reaches_roster
    (H := fun t k => Roster.Reliable t k ∧ Roster.Timely t k)
    (fun _ _ _ _ hs hB hg hk => ⟨hk.reliable, hk.timely hs hB hg.2⟩)
    (fun _ _ _ _ _ _ hg hr => ⟨hr hg.1, trivial⟩) h
  obtain ⟨v, own, us, hl, -, -, -, hk⟩ := hs.1.client c
  rw [hl] at hu
  have hn : u.name ∈ names us := List.mem_map_of_mem hu
  rw [hk] at hn
  obtain ⟨d, hd, he⟩ := List.mem_map.mp hn
  rw [← he]
  exact hs.mem_server.mpr
    (Roster.roster_of_known ht (hs.quiet hq) ((hs.1.ended c).trans hc) hd)

theorem no_ghosts_pair : ∃ s u,
    Reaches (chat pair) (fun s a => Reliable pair s a ∧ Timely pair s a) s ∧ s.Quiescent ∧
    (s.proc (some 1)).runnerEnd = false ∧ u ∈ (s.proc (some 1)).userList.drop 2 ∧
    u.name ∈ names (s.proc none).userList := by
  obtain ⟨s, hs, hq, -, he, -, -, u, hu, -⟩ := both_joined
  have hr : Reaches (chat pair) (fun s a => Reliable pair s a ∧ Timely pair s a) s :=
    hs.mono (fun _ _ h => ⟨h.1, h.2.1⟩)
  exact ⟨s, u, hr, hq, he, hu, no_ghosts pair hr hq he hu⟩

/-- The Logout of Alice reaches Bob before her BackSyn, and Bob lists her for good. -/
theorem ghost_listed : ∃ s, Reaches (chat pair) (Reliable pair) s ∧ s.Quiescent ∧
    (s.proc (some 1)).runnerEnd = false ∧
    (∃ own ∈ (s.proc (some 1)).userList[1]?, own.status = some .online) ∧
    ∃ u ∈ (s.proc (some 1)).userList.drop 2, u.name ∉ names (s.proc none).userList :=
  Reaches.exists_of_run (.init rfl)
    (bothLogin ++ [.logout 0, .transmit (some 0), .transmit (some 0), .deliver none 1, .handle none,
      .transmit none, .transmit none, .deliver (some 0) 1, .handle (some 0), .deliver (some 1) 1,
      .handle (some 1), .deliver (some 1) 0, .handle (some 1)]) (by decide +kernel)

/-- The status of a client that has not logged out survives, whatever the network does. -/
theorem status_kept (cfg : Config ι) (h : Reaches (chat cfg) HearsOwn s) {c : ι}
    (hc : s.logoutCalled c = false) {own : UserInfo}
    (hi : (s.proc (some c)).userList[1]? = some own) : own.status ≠ some .null := by
  obtain ⟨t, ht, hs⟩ := reaches_roster (H := Roster.HearsOwn)
    (fun _ _ _ _ hs hB hg hk => hk.hearsOwn hs hB hg) (fun _ _ _ _ _ _ _ _ => trivial) h
  obtain ⟨own', hi', -, hst⟩ := (hs.1.client c).exists_own
  obtain rfl : own' = own := Option.some.inj (hi'.symm.trans hi)
  rw [hst]
  intro he
  have hnull : t.status c = .null := by
    cases hs : t.status c with
    | null => rfl
    | online => simp [hs, statusOf] at he
    | login => simp [hs, statusOf] at he
  have hleft := Roster.left_of_null ht c hnull
  rw [hs.1.left, hc] at hleft
  cases hleft

theorem status_kept_pair : ∃ s own, Reaches (chat pair) HearsOwn s ∧
    bobName.bytes ∈ names (s.proc none).userList ∧ s.logoutCalled 1 = false ∧
    (s.proc (some 1)).userList[1]? = some own ∧ own.status ≠ some .null := by
  obtain ⟨s, hs, -, hl, -, hc, ⟨own, hi⟩, -⟩ := both_joined
  have hr : Reaches (chat pair) HearsOwn s := hs.mono (fun _ _ h => h.2.2)
  exact ⟨s, own, hr, by simp [hl], hc, hi, status_kept pair hr hc hi⟩

/-- The announcement of Bob overtakes that of Alice, who waits for it. -/
theorem status_lost : ∃ s, Reachable (chat pair) s ∧
    aliceName.bytes ∈ names (s.proc none).userList ∧ s.logoutCalled 0 = false ∧
    ∃ own ∈ (s.proc (some 0)).userList[1]?, own.status = some .null :=
  Reaches.exists_of_run (.init rfl)
    [.login 0, .transmit (some 0), .deliver none 0, .handle none, .login 1, .transmit (some 1),
      .deliver none 0, .handle none, .transmit none, .transmit none, .transmit none,
      .transmit none, .deliver (some 0) 0, .handle (some 0), .deliver (some 0) 2,
      .handle (some 0)] (by decide +kernel)

end Agreement

end Hatch.Net
