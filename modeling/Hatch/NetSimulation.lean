import Hatch.NetReceipt
import Hatch.NetView

/-!
# The simulation relation

A system state and an abstract state agree when the user lists show the roster and
the known peers and every pipe carries the abstract messages. `Follows` says how a
step of the system is followed: by one step of the roster protocol, or by none, up
to messages that are refused, lost or overtaken. With reliable delivery and no full
queue only messages to clients that have ended go astray.
-/

namespace Hatch.Net

open ByteLayout FaultProgram Prog TransitionSystem

variable {ι : Type}

section Sent

variable {cfg : Config ι} {us : List UserInfo} {roster : List ι} {b n : Bytes} {ty : MsgType}

theorem groupCopies_of_carries (h : Carries b ty n) : groupCopies b us = us.map (readdress b) := by
  rw [groupCopies, h.size, List.take_length]

theorem wireOf_readdress (h : Carries b ty n) (u : UserInfo) :
    wireOf (readdress b u) = wireOf b := by
  rw [h.readdress.wireOf_eq, h.wireOf_eq, body_readdress h]

/-- Every client on the roster gets one copy of a group message. -/
theorem waiting_group [DecidableEq ι] (hc : Carries b ty n)
    (hv : List.Forall₂ (EntryOf cfg) us roster) (hn : roster.Nodup) (e : Endpoint) (d : ι) :
    waiting e (cfg.endpoint d) (groupCopies b us) =
      if d ∈ roster then [recvMsg (sockAddr e) (wireOf b)] else [] := by
  rw [groupCopies_of_carries hc]
  induction hv with
  | nil => rfl
  | @cons u c us cs hu hus ih =>
      have hnd := List.nodup_cons.mp hn
      have he : (msgFromAddr (readdress b u)).endpoint = cfg.endpoint d ↔ d = c := by
        rw [msgFromAddr_readdress hc, hu.2, cfg.endpoint_injective.eq_iff]
        exact eq_comm
      rw [List.map_cons, waiting_cons, ih hnd.2, wireOf_readdress hc]
      by_cases hd : d = c
      · subst hd
        simp [he, hnd.1]
      · simp [he, hd]

theorem waiting_group_server (hc : Carries b ty n) (hv : List.Forall₂ (EntryOf cfg) us roster)
    (e : Endpoint) : waiting e serverEndpoint (groupCopies b us) = [] := by
  rw [groupCopies_of_carries hc]
  induction hv with
  | nil => rfl
  | @cons u c us cs hu hus ih =>
      have he : (msgFromAddr (readdress b u)).endpoint ≠ serverEndpoint := by
        rw [msgFromAddr_readdress hc, hu.2]
        exact cfg.endpoint_ne_server c
      rw [List.map_cons, waiting_cons, ih, if_neg he]
      rfl

theorem waiting_singleton {e e' : Endpoint} : waiting e e' [b] =
    if (msgFromAddr b).endpoint = e' then [recvMsg (sockAddr e) (wireOf b)] else [] := by
  rw [waiting_cons]
  exact List.append_nil _

end Sent

def FromParty (cfg : Config ι) (l : List Bytes) : Prop :=
  ∀ b ∈ l, ∃ p, (msgFromAddr b).endpoint = cfg.socket p

structure Agrees (cfg : Config ι) (s : System ι) (t : Roster.State ι) : Prop where
  called : ∀ c, t.called c = s.loginCalled c
  left : ∀ c, t.left c = s.logoutCalled c
  ended : ∀ c, t.ended c = (s.proc (some c)).runnerEnd
  serverRuns : (s.proc none).runnerEnd = false
  server : ServerView cfg (s.proc none).userList t.roster
  client : ∀ c, ClientView cfg c (t.called c) (t.status c) (t.known c) (s.proc (some c)).userList
  origin : ∀ q, FromParty cfg (s.recv q)
  source : ∀ d ∈ s.net, ∃ p, d.src = cfg.socket p

def Simulates (cfg : Config ι) (s : System ι) (t : Roster.State ι) : Prop :=
  Agrees cfg s t ∧ Flows cfg (s.pipe cfg) t

theorem simulates_start (cfg : Config ι) : Simulates cfg (.start cfg) Roster.initial := by
  have hnil (p q : Option ι) : (System.start cfg).pipe cfg p q = [] := by
    cases p <;> cases q <;> rfl
  refine ⟨⟨fun _ => rfl, fun _ => rfl, fun _ => rfl, rfl, ?_, ?_, ?_, ?_⟩, ?_⟩
  · exact ⟨serverUser, [], rfl, rfl, .nil⟩
  · intro c
    exact ⟨serverUser, ownUser (cfg.ownerAddr c) clientInitName, [], rfl, rfl, rfl, rfl, rfl⟩
  · intro q b hb
    cases q <;> cases hb
  · exact fun d hd => absurd hd List.not_mem_nil
  · refine ⟨?_, ?_, ?_, ?_, hnil none none⟩
    · intro c
      rw [hnil]
      exact .nil
    · intro c
      rw [hnil]
      exact .nil
    · intro a c
      rw [hnil]
      rfl
    · intro a c b hb
      rw [hnil] at hb
      exact absurd hb List.not_mem_nil

/-- Everything on the way is a complete message. -/
theorem Flows.carries {cfg : Config ι} {P : Option ι → Option ι → List Bytes} {t : Roster.State ι}
    (h : Flows cfg P t) {p q : Option ι} {b : Bytes} (hb : b ∈ P p q) :
    ∃ ty n, Carries b ty n := by
  match p, q with
  | none, none =>
      rw [h.loop] at hb
      exact absurd hb List.not_mem_nil
  | some c, none =>
      obtain ⟨m, hm, -⟩ := forall₂_sublist (h.up c) (List.singleton_sublist.mpr hb)
      obtain ⟨r, _, hr, -⟩ := List.forall₂_cons_left_iff.mp hm
      cases r with
      | login => exact ⟨_, _, hr⟩
      | logout => exact ⟨_, _, hr⟩
  | none, some c =>
      obtain ⟨m, hm, -⟩ := forall₂_sublist (h.down c) (List.singleton_sublist.mpr hb)
      obtain ⟨r, _, hr, -⟩ := List.forall₂_cons_left_iff.mp hm
      cases r with
      | reply => exact ⟨_, _, hr⟩
      | error => exact ⟨_, _, hr⟩
      | update d =>
          obtain ⟨a, ha, -⟩ := hr
          exact ⟨_, _, ha.toCarries⟩
      | logout d => exact ⟨_, _, hr⟩
  | some a, some c =>
      obtain ⟨x, hx⟩ := h.greeting a c b hb
      exact ⟨_, _, hx.toCarries⟩

variable [DecidableEq ι]

/-- The action of the roster protocol that follows one of the system. -/
inductive Answer (cfg : Config ι) (s : System ι) (t : Roster.State ι) :
    SystemAction ι → Roster.Action ι → Prop
  | login (c : ι) : Answer cfg s t (.login c) (.login c)
  | logout (c : ι) : Answer cfg s t (.logout c) (.logout c)
  | finish (c : ι) : Answer cfg s t (.servicesEnd c) (.finish c)
  | serve (c : ι) : Answer cfg s t (.handle none) (.serve c)
  | hear (c : ι) (b : Bytes) (m : Roster.Notice ι) (hb : (s.recv (some c)).head? = some b)
      (hm : NoticeOf cfg b m) (hd : (t.down c).head? = some m) :
      Answer cfg s t (.handle (some c)) (.hear c)
  | greet (a c : ι) (b : Bytes) (hb : (s.recv (some c)).head? = some b) (hm : GreetingOf cfg a b)
      (hp : 0 < t.peer a c) : Answer cfg s t (.handle (some c)) (.greet a c)

/-- `s'` is the system after `a`; its pipes are those of `t₁`, up to loss and order. -/
structure Follows (cfg : Config ι) (s : System ι) (a : SystemAction ι) (s' : System ι)
    (t t₁ : Roster.State ι) (P : Option ι → Option ι → List Bytes) : Prop where
  answer : t₁ = t ∨ ∃ b, Answer cfg s t a b ∧ Roster.Change t b t₁
  agrees : Agrees cfg s' t₁
  flows : Flows cfg P t₁
  within : ∀ x y, (s'.pipe cfg x y).Subperm (P x y)
  kept : InOrder s a → s'.NoOverflow → ∀ x y, s'.pipe cfg x y = P x y ∨
    ∃ c, y = some c ∧ t₁.ended c = true

section Parties

variable {cfg : Config ι} {s : System ι} {t t₁ : Roster.State ι} {u : Process}

theorem System.recv_setProc (p : Option ι) :
    (s.setProc p u).recv = Function.update s.recv p u.recvList.list := by
  funext q
  by_cases hq : q = p
  · subst hq
    simp [System.recv, System.setProc]
  · simp [System.recv, System.setProc, hq]

theorem System.send_setProc (p : Option ι) :
    (s.setProc p u).send = Function.update s.send p u.sendList.list := by
  funext q
  by_cases hq : q = p
  · subst hq
    simp [System.send, System.setProc]
  · simp [System.send, System.setProc, hq]

theorem System.pipe_setProc (p : Option ι) : (s.setProc p u).pipe cfg =
    pipeOf cfg (Function.update s.recv p u.recvList.list)
      (Function.update s.send p u.sendList.list) s.net := by
  rw [System.pipe, recv_setProc, send_setProc]
  rfl

theorem System.origin_setProc (h : Agrees cfg s t) {p : Option ι}
    (hr : FromParty cfg u.recvList.list) (q : Option ι) :
    FromParty cfg ((s.setProc p u).recv q) := by
  rw [recv_setProc]
  by_cases hq : q = p
  · subst hq
    rwa [Function.update_self]
  · rw [Function.update_of_ne hq]
    exact h.origin q

theorem Agrees.setServer (h : Agrees cfg s t) (hv : ServerView cfg u.userList t₁.roster)
    (hr : FromParty cfg u.recvList.list) (he : u.runnerEnd = false) (hcalled : t₁.called = t.called)
    (hleft : t₁.left = t.left) (hended : t₁.ended = t.ended) (hstatus : t₁.status = t.status)
    (hknown : t₁.known = t.known) : Agrees cfg (s.setProc none u) t₁ where
  called c := hcalled ▸ h.called c
  left c := hleft ▸ h.left c
  ended c := hended ▸ h.ended c
  serverRuns := he
  server := hv
  client c := by
    rw [hcalled, hstatus, hknown]
    exact h.client c
  origin := System.origin_setProc h hr
  source := h.source

theorem Agrees.setClient (h : Agrees cfg s t) {c : ι}
    (hv : ClientView cfg c (t₁.called c) (t₁.status c) (t₁.known c) u.userList)
    (hr : FromParty cfg u.recvList.list) (he : t₁.ended c = u.runnerEnd)
    (hcalled : t₁.called = t.called) (hleft : t₁.left = t.left) (hroster : t₁.roster = t.roster)
    (ho : ∀ x, x ≠ c → t₁.status x = t.status x ∧ t₁.known x = t.known x ∧
      t₁.ended x = t.ended x) : Agrees cfg (s.setProc (some c) u) t₁ where
  called x := hcalled ▸ h.called x
  left x := hleft ▸ h.left x
  ended x := by
    by_cases hx : x = c
    · subst hx
      simpa [System.setProc] using he
    · simpa [System.setProc, hx, (ho x hx).2.2] using h.ended x
  serverRuns := h.serverRuns
  server := by
    rw [hroster]
    exact h.server
  client x := by
    by_cases hx : x = c
    · subst hx
      simpa [System.setProc] using hv
    · obtain ⟨h1, h2, -⟩ := ho x hx
      simpa [System.setProc, hx, hcalled, h1, h2] using h.client x
  origin := System.origin_setProc h hr
  source := h.source

def System.popped (cfg : Config ι) (s : System ι) (q : Option ι) (rest : List Bytes) :
    Option ι → Option ι → List Bytes :=
  pipeOf cfg (Function.update s.recv q rest) s.send s.net

def sending (cfg : Config ι) (q : Option ι) (ms : List Bytes)
    (P : Option ι → Option ι → List Bytes) (x y : Option ι) : List Bytes :=
  P x y ++ if x = q then waiting (cfg.socket q) (cfg.socket y) ms else []

@[simp] theorem sending_nil (q : Option ι) (P : Option ι → Option ι → List Bytes) :
    sending cfg q [] P = P := by
  funext x y
  simp [sending, waiting]

/-- What a party sends joins its pipes, unless its queue is full. -/
theorem System.pipe_sent (cfg : Config ι) {q : Option ι} {ms : List Bytes}
    (hs : u.sendList = (s.proc q).sendList.pushAll ms) :
    (∀ x y, ((s.setProc q u).pipe cfg x y).Subperm
      (sending cfg q ms (s.popped cfg q u.recvList.list) x y)) ∧
    ((s.setProc q u).NoOverflow →
      (s.setProc q u).pipe cfg = sending cfg q ms (s.popped cfg q u.recvList.list)) := by
  obtain ⟨sent, hsub, hlist, hall⟩ := MsgQueue.pushAll_list (s.proc q).sendList ms
  have hsend : u.sendList.list = s.send q ++ sent := by rw [hs, hlist, System.send]
  rw [System.pipe_setProc, hsend]
  constructor
  · intro x y
    rw [pipeOf_send]
    refine (List.Sublist.append_left ?_ _).subperm
    split_ifs
    · exact (hsub.filter _).map _
    · exact .refl _
  · intro hno
    have h0 : u.sendList.refused = 0 := by
      have hr := (hno q).2.1
      simpa [System.setProc] using hr
    funext x y
    rw [pipeOf_send, hall (hs ▸ h0)]
    rfl

/-- A call takes no message. -/
theorem System.popped_called {q : Option ι} (hr : u.recvList = (s.proc q).recvList) :
    s.popped cfg q u.recvList.list = s.pipe cfg := by
  rw [hr]
  exact congrArg (pipeOf cfg · _ _) (Function.update_eq_self q s.recv)

theorem System.pipe_pop {p q : Option ι} {b : Bytes} {rest : List Bytes}
    (hb : s.recv q = b :: rest) (hp : (msgFromAddr b).endpoint = cfg.socket p) (x y : Option ι) :
    s.pipe cfg x y = (if x = p ∧ y = q then [b] else []) ++ s.popped cfg q rest x y := by
  have hx : (msgFromAddr b).endpoint = cfg.socket x ↔ x = p := by
    rw [hp, cfg.socket_injective.eq_iff]
    exact eq_comm
  rw [System.pipe, pipeOf_pop hb]
  simp only [hx, System.popped, and_comm]

theorem System.pipe_setProc_eq {p : Option ι} (hr : u.recvList.list = s.recv p)
    (hs : u.sendList.list = s.send p) : (s.setProc p u).pipe cfg = s.pipe cfg := by
  rw [System.pipe_setProc, hr, hs, Function.update_eq_self, Function.update_eq_self]
  rfl

/-- A process whose list is unchanged still shows the same. -/
theorem Agrees.setProc (h : Agrees cfg s t) {p : Option ι}
    (hl : u.userList = (s.proc p).userList) (hr : FromParty cfg u.recvList.list)
    (he : u.runnerEnd = (s.proc p).runnerEnd) : Agrees cfg (s.setProc p u) t := by
  cases p with
  | none => exact h.setServer (hl ▸ h.server) hr (he ▸ h.serverRuns) rfl rfl rfl rfl rfl
  | some c =>
      exact h.setClient (hl ▸ h.client c) hr (he ▸ h.ended c) rfl rfl rfl
        (fun _ _ => ⟨rfl, rfl, rfl⟩)

theorem System.runOn_eq_some {α : Type} {p : Option ι} {f : Handler α} {s' : System ι}
    (h : s.runOn p f = some s') : ∃ a v, f (s.proc p) = .ok (a, v) ∧ s' = s.setProc p v := by
  unfold System.runOn at h
  split at h
  · rename_i a v hv
    exact ⟨a, v, hv, (Option.some.inj h).symm⟩
  · cases h

end Parties

end Hatch.Net
