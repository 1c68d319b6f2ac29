import Hatch.NetSimulation

/-!
# Handled messages

A party takes the first message off its receive queue and runs its handler. The
server answers requests, a client takes notices of the server and greetings of its
peers; each is one step of the roster protocol, except for a Login that the server
drops because its send queue is full.
-/

namespace Hatch.Net

open ByteLayout FaultProgram Prog TransitionSystem

variable {ι : Type}

/-- Party `q` takes message `b` of party `p`, which leaves `r`, and its handler leaves `u`. -/
structure Taken (cfg : Config ι) (s : System ι) (p q : Option ι) (b : Bytes) (r : MsgQueue)
    (u : Process) : Prop where
  head : s.recv q = b :: r.list
  sender : (msgFromAddr b).endpoint = cfg.socket p
  run : ∃ a, hatchMsgProc (protocolOf q) b { s.proc q with recvList := r } = .ok (a, u)

section Taken

variable {cfg : Config ι} {s s' : System ι} {t t₁ : Roster.State ι} {p q : Option ι} {b : Bytes}
  {r : MsgQueue} {u : Process} {l : List UserInfo} {ms : List Bytes} {e : Bool}

theorem taken_of_execute [DecidableEq ι] (h : Agrees cfg s t)
    (he : s.execute cfg (.handle q) = some s') :
    ∃ p b r u, Taken cfg s p q b r u ∧ s' = s.setProc q u := by
  simp only [System.execute] at he
  split at he
  · rename_i b r hr
    obtain ⟨a, u, hu, rfl⟩ := System.runOn_eq_some he
    obtain ⟨hl, -⟩ := MsgQueue.pop_eq_some hr
    obtain ⟨p, hp⟩ := h.origin q b (by simp [System.recv, hl])
    refine ⟨p, b, r, u, ⟨hl, hp, a, ?_⟩, ?_⟩
    · simpa [System.setProc] using hu
    · simp [System.setProc]
  · cases he

theorem Taken.spec (hT : Taken cfg s p q b r u) {Q : ℤ → Process → Prop}
    (hw : wp (hatchMsgProc (protocolOf q) b) False Q { s.proc q with recvList := r }) :
    ∃ a, Q a u := by
  obtain ⟨a, ha⟩ := hT.run
  exact ⟨a, (wp_of_run ha Q).mp hw⟩

theorem Taken.fromParty (hT : Taken cfg s p q b r u) (h : Agrees cfg s t)
    (hu : u.recvList = r) : FromParty cfg u.recvList.list := by
  rw [hu]
  intro b' hb'
  exact h.origin q b' (by rw [hT.head]; exact List.mem_cons_of_mem _ hb')

variable [DecidableEq ι]

/-- A handled message is followed by one step of the roster protocol. -/
theorem Taken.follows {m : Roster.Action ι}
    (hL : Process.Leaves { s.proc q with recvList := r } u l ms e)
    (hm : Answer cfg s t (.handle q) m) (hc : Roster.Change t m t₁)
    (ha : Agrees cfg (s.setProc q u) t₁)
    (hf : Flows cfg (sending cfg q ms (s.popped cfg q r.list)) t₁) :
    ∃ t₁ P, Follows cfg s (.handle q) (s.setProc q u) t t₁ P := by
  have hp := System.pipe_sent cfg (s := s) hL.sendList
  rw [hL.recvList] at hp
  exact ⟨t₁, _, .inr ⟨m, hm, hc⟩, ha, hf, hp.1,
    fun _ hno x y => .inl (congrFun (congrFun (hp.2 hno) x) y)⟩

end Taken

variable [DecidableEq ι]

section Server

variable {cfg : Config ι} {s : System ι} {t : Roster.State ι} {c : ι} {b : Bytes} {r : MsgQueue}
  {u : Process} {rest : List Roster.Request} {P : Option ι → Option ι → List Bytes}

/-- The server answers `c` with `x` and sends a copy of `y` to everybody on the roster. -/
theorem Flows.answered {x y n : Bytes} {ty : MsgType} {m m' : Roster.Notice ι} {roster : List ι}
    {us : List UserInfo} (h : Flows cfg P t) (hx : (msgFromAddr x).endpoint = cfg.endpoint c)
    (hm : NoticeOf cfg (recvMsg (sockAddr serverEndpoint) (wireOf x)) m) (hy : Carries y ty n)
    (hm' : NoticeOf cfg (recvMsg (sockAddr serverEndpoint) (wireOf y)) m')
    (hv : List.Forall₂ (EntryOf cfg) us roster) (hn : roster.Nodup) :
    Flows cfg (sending cfg none (x :: groupCopies y us) P)
      { t with down := Roster.broadcast (Roster.push t.down c m) roster m' } := by
  have hf : Flows cfg (sending cfg none (x :: groupCopies y us) P) { t with
      down := fun d => t.down d ++ ((if d = c then [m] else []) ++
        if d ∈ roster then [m'] else []) } := by
    refine h.announce (W := fun q => waiting serverEndpoint (cfg.socket q) (x :: groupCopies y us))
      (fun _ _ => rfl) (fun d => ?_) ?_
    · change List.Forall₂ _ (waiting serverEndpoint (cfg.endpoint d) _) _
      rw [waiting_cons, waiting_group hy hv hn, hx]
      refine List.rel_append ?_ ?_
      · by_cases hd : d = c
        · subst hd
          simpa using hm
        · have hne : cfg.endpoint c ≠ cfg.endpoint d :=
            fun he => hd (cfg.endpoint_injective he).symm
          simp [hd, hne]
      · by_cases hd : d ∈ roster
        · simpa [hd] using hm'
        · simp [hd]
    · change waiting serverEndpoint serverEndpoint _ = []
      rw [waiting_cons, waiting_group_server hy hv, hx, if_neg (cfg.endpoint_ne_server c)]
      rfl
  refine hf.congr rfl (funext fun d => ?_) rfl
  exact Roster.broadcast_push_apply.trans (List.append_assoc ..)

variable (h : Simulates cfg s t) (hB : Roster.Basic t) (hT : Taken cfg s (some c) none b r u)
  (hf : Flows cfg (s.popped cfg none r.list) { t with up := Function.update t.up c rest })
include h hB hT hf

theorem follows_admitted (hr : t.up c = .login :: rest) (hc : Carries b .login (cfg.bytes c))
    (hL : Process.Leaves { s.proc none with recvList := r } u
      ((s.proc none).userList ++ [loginUser b]) (rename b serverName ::
        groupCopies (announcement (s.proc none).junk b)
          (((s.proc none).userList ++ [loginUser b]).drop 1)) (s.proc none).runnerEnd) :
    ∃ t₁ P, Follows cfg s (.handle none) (s.setProc none u) t t₁ P := by
  have hlong : offUserName ≤ b.length := le_trans (by decide) hc.long
  have hsender : (msgFromAddr b).endpoint = cfg.endpoint c := hT.sender
  have hc' : c ∉ t.roster := by
    intro hn
    have hs := (hB.login c (by simp [hr])).2
    rw [hB.roster c hn] at hs
    cases hs
  have he : EntryOf cfg (loginUser b) c := ⟨hc.name, hsender⟩
  have hup : CarriesAddr (announcement (s.proc none).junk b) .update (cfg.bytes c)
      (msgFromAddr b) := by
    rw [← hc.name]
    exact carriesAddr_updateMsg (zero_notMem_cstr _ _) (hc.name.symm ▸ (cfg.name c).fits)
  obtain ⟨v, us, hl, -, hus⟩ := h.1.server.append he
  refine Taken.follows hL (.serve c) (.admitted c rest hr hc') ?_ ?_
  · refine h.1.setServer ?_ (hT.fromParty h.1 hL.recvList) (hL.runnerEnd.trans h.1.serverRuns) rfl
      rfl rfl rfl rfl
    rw [hL.userList]
    exact h.1.server.append he
  · rw [hl]
    have hx : (msgFromAddr (rename b serverName)).endpoint = cfg.endpoint c := by
      rw [msgFromAddr_rename hlong]
      exact hsender
    have hm : NoticeOf cfg (recvMsg (sockAddr serverEndpoint) (wireOf (rename b serverName)))
      .reply := (hc.rename (by decide) (by decide)).recvMsg
    have hm' : NoticeOf cfg (recvMsg (sockAddr serverEndpoint)
      (wireOf (announcement (s.proc none).junk b))) (.update c) := ⟨_, hup.recvMsg, hsender⟩
    exact (hf.answered hx hm hup.toCarries hm' hus (Roster.nodup_concat hB.nodup hc')).congr rfl
      rfl rfl

theorem follows_dismissed (hr : t.up c = .logout :: rest) (hc : Carries b .logout (cfg.bytes c))
    (hn : c ∈ t.roster) (hL : Process.Leaves { s.proc none with recvList := r } u
      (eraseUser (cfg.bytes c) (s.proc none).userList) (b :: groupCopies b
        ((eraseUser (cfg.bytes c) (s.proc none).userList).drop 1)) (s.proc none).runnerEnd) :
    ∃ t₁ P, Follows cfg s (.handle none) (s.setProc none u) t t₁ P := by
  obtain ⟨v, us, hl, -, hus⟩ := h.1.server.erase c
  refine Taken.follows hL (.serve c) (.dismissed c rest hr hn) ?_ ?_
  · refine h.1.setServer ?_ (hT.fromParty h.1 hL.recvList) (hL.runnerEnd.trans h.1.serverRuns) rfl
      rfl rfl rfl rfl
    rw [hL.userList]
    exact h.1.server.erase c
  · rw [hl]
    have hm : NoticeOf cfg (recvMsg (sockAddr serverEndpoint) (wireOf b)) (.logout c) := hc.recvMsg
    exact (hf.answered hT.sender hm hc hm hus (hB.nodup.erase c)).congr rfl rfl rfl

omit hB in
theorem follows_absent (hr : t.up c = .logout :: rest) (hn : c ∉ t.roster)
    (hL : Process.Leaves { s.proc none with recvList := r } u (s.proc none).userList []
      (s.proc none).runnerEnd) :
    ∃ t₁ P, Follows cfg s (.handle none) (s.setProc none u) t t₁ P := by
  refine Taken.follows hL (.serve c) (.absent c rest hr hn) ?_ ?_
  · exact h.1.setServer (hL.userList ▸ h.1.server) (hT.fromParty h.1 hL.recvList)
      (hL.runnerEnd.trans h.1.serverRuns) rfl rfl rfl rfl rfl
  · rw [sending_nil]
    exact hf

omit hB hf in
/-- The reply does not fit into the send queue, and the Login is dropped. -/
theorem follows_dropped {m : Bytes} (hq : ¬ (s.proc none).sendList.sem < netMessageListMaxLength)
    (hL : Process.Leaves { s.proc none with recvList := r } u (s.proc none).userList [m]
      (s.proc none).runnerEnd) :
    ∃ t₁ P, Follows cfg s (.handle none) (s.setProc none u) t t₁ P := by
  have hfull : u.sendList = ⟨(s.proc none).sendList.sem, s.send none,
      (s.proc none).sendList.refused + 1⟩ := by
    rw [hL.sendList, MsgQueue.pushAll_cons, MsgQueue.push_of_not_lt hq]
    rfl
  have hp : (s.setProc none u).pipe cfg = s.popped cfg none r.list := by
    rw [System.pipe_setProc, hL.recvList, hfull]
    exact congrArg (pipeOf cfg _ · _) (Function.update_eq_self none s.send)
  refine ⟨t, s.pipe cfg, .inl rfl, ?_, h.2, fun x y => ?_, fun _ hno => ?_⟩
  · exact h.1.setProc hL.userList (hT.fromParty h.1 hL.recvList) hL.runnerEnd
  · rw [hp, System.pipe_pop hT.head hT.sender]
    exact (List.sublist_append_right _ _).subperm
  · have h0 := (hno none).2.1
    simp [System.setProc, hfull] at h0

end Server

section ServerStep

variable {cfg : Config ι} {s s' : System ι} {t : Roster.State ι}

theorem follows_handle_server (h : Simulates cfg s t) (hB : Roster.Basic t)
    (he : s.execute cfg (.handle none) = some s') :
    ∃ t₁ P, Follows cfg s (.handle none) s' t t₁ P := by
  obtain ⟨p, b, r, u, hT, rfl⟩ := taken_of_execute h.1 he
  have hP := System.pipe_pop hT.head hT.sender
  cases p with
  | none =>
      have hl := h.2.loop
      rw [hP] at hl
      simp at hl
  | some c =>
      obtain ⟨m, rest, hr, hm, hf⟩ := h.2.serve hP
      cases m with
      | login =>
          obtain ⟨-, hu⟩ := hT.spec (server_login hm)
          rcases hu with ⟨hn, -⟩ | ⟨-, hL⟩ | ⟨hq, hL⟩
          · have hs := (hB.login c (by simp [hr])).2
            rw [hB.roster c (h.1.server.mem_names.mp hn)] at hs
            cases hs
          · exact follows_admitted h hB hT hf hr hm hL
          · exact follows_dropped h hT hq hL
      | logout =>
          have hne : eraseUser (cfg.bytes c) (s.proc none).userList ≠ [] := by
            obtain ⟨v, us, hl, -⟩ := h.1.server.erase c
            rw [hl]
            exact List.cons_ne_nil _ _
          obtain ⟨-, hu⟩ := hT.spec (server_logout hm hne)
          rcases hu with ⟨hn, hL⟩ | ⟨hn, hL⟩
          · exact follows_dismissed h hB hT hf hr hm (h.1.server.mem_names.mp hn) hL
          · exact follows_absent h hT hf hr (fun hc => hn (h.1.server.mem_names.mpr hc)) hL

end ServerStep

section Client

variable {cfg : Config ι} {s : System ι} {t t₁ : Roster.State ι} {c : ι} {b : Bytes} {r : MsgQueue}
  {u : Process} {rest : List (Roster.Notice ι)} {m : Roster.Notice ι} {own : UserInfo}
  {l : List UserInfo} {e : Bool}

/-- A client that changes its list and its state and sends nothing. -/
theorem follows_silent {p : Option ι} {k : Roster.Action ι} (h : Simulates cfg s t)
    (hT : Taken cfg s p (some c) b r u)
    (hL : Process.Leaves { s.proc (some c) with recvList := r } u l [] e)
    (hk : Answer cfg s t (.handle (some c)) k) (hc : Roster.Change t k t₁)
    (hf : Flows cfg (s.popped cfg (some c) r.list) t₁)
    (hv : ClientView cfg c (t₁.called c) (t₁.status c) (t₁.known c) l) (he : t₁.ended c = e)
    (hcalled : t₁.called = t.called) (hleft : t₁.left = t.left) (hroster : t₁.roster = t.roster)
    (ho : ∀ x, x ≠ c → t₁.status x = t.status x ∧ t₁.known x = t.known x ∧
      t₁.ended x = t.ended x) :
    ∃ t₁ P, Follows cfg s (.handle (some c)) (s.setProc (some c) u) t t₁ P := by
  refine Taken.follows hL hk hc ?_ ?_
  · exact h.1.setClient (hL.userList ▸ hv) (hT.fromParty h.1 hL.recvList)
      (he.trans hL.runnerEnd.symm) hcalled hleft hroster ho
  · rw [sending_nil]
    exact hf

variable (h : Simulates cfg s t) (hB : Roster.Basic t) (hT : Taken cfg s none (some c) b r u)
  (hf : Flows cfg (s.popped cfg (some c) r.list) { t with down := Function.update t.down c rest })
  (hr : t.down c = m :: rest) (hm : NoticeOf cfg b m)

omit [DecidableEq ι] in
include hT hr hm in
theorem answer_hear : Answer cfg s t (.handle (some c)) (.hear c) :=
  .hear c b m (by simp [hT.head]) hm (by simp [hr])

include h hB hT hf

omit hB in
/-- The notice only changes the status. -/
theorem follows_status (st : Roster.Status) (hi : (s.proc (some c)).userList[1]? = some own)
    (hr : t.down c = m :: rest) (hm : NoticeOf cfg b m)
    (hL : Process.Leaves { s.proc (some c) with recvList := r } u
      ((s.proc (some c)).userList.set 1 { own with status := some (statusOf st) }) []
      (s.proc (some c)).runnerEnd)
    (hc : Roster.Change t (.hear c) { t with
      down := Function.update t.down c rest
      status := Function.update t.status c st }) :
    ∃ t₁ P, Follows cfg s (.handle (some c)) (s.setProc (some c) u) t t₁ P := by
  refine follows_silent h hT hL (answer_hear hT hr hm) hc (hf.congr rfl rfl rfl) ?_
    (h.1.ended c) rfl rfl rfl (fun x hx => ⟨by simp [hx], rfl, rfl⟩)
  change ClientView cfg c (t.called c) (Function.update t.status c st c) (t.known c) _
  rw [Function.update_self]
  exact (h.1.client c).setStatus hi

omit hB in
/-- The notice changes neither the status nor the peers. -/
theorem follows_stale {d : ι} (hr : t.down c = .update d :: rest) (hm : NoticeOf cfg b (.update d))
    (hs : t.status c ≠ .login) (hd : t.status c = .online → d = c ∨ d ∈ t.known c)
    (hL : Process.Leaves { s.proc (some c) with recvList := r } u (s.proc (some c)).userList []
      (s.proc (some c)).runnerEnd) :
    ∃ t₁ P, Follows cfg s (.handle (some c)) (s.setProc (some c) u) t t₁ P :=
  follows_silent h hT hL (answer_hear hT hr hm) (.stale c d rest hr hs hd) hf (h.1.client c)
    (h.1.ended c) rfl rfl rfl (fun _ _ => ⟨rfl, rfl, rfl⟩)

omit hB in
/-- A newcomer becomes a peer and is greeted. -/
theorem follows_newcomer {d : ι} {a : SockAddrIn} (hr : t.down c = .update d :: rest)
    (hs : t.status c = .online) (hd : d ≠ c) (hk : d ∉ t.known c)
    (ha : CarriesAddr b .update (cfg.bytes d) a) (hae : a.endpoint = cfg.endpoint d)
    (ho : own.name = cfg.bytes c)
    (hL : Process.Leaves { s.proc (some c) with recvList := r } u
      ((s.proc (some c)).userList ++ [announcedUser b])
      [backSynMsg b a (own.addr, own.port) own.name] (s.proc (some c)).runnerEnd) :
    ∃ t₁ P, Follows cfg s (.handle (some c)) (s.setProc (some c) u) t t₁ P := by
  have hown : own.name.length < usernameMaxLength := ho ▸ (cfg.name c).fits
  have hdest : (msgFromAddr (backSynMsg b a (own.addr, own.port) own.name)).endpoint =
      cfg.endpoint d := by
    rw [msgFromAddr_backSynMsg ha hown, hae]
  refine Taken.follows hL (answer_hear hT hr ⟨a, ha, hae⟩) (.newcomer c d rest hr hs hd hk) ?_ ?_
  · refine h.1.setClient ?_ (hT.fromParty h.1 hL.recvList)
      ((h.1.ended c).trans hL.runnerEnd.symm) rfl rfl rfl (fun x hx => ⟨rfl, ?_, rfl⟩)
    · rw [hL.userList]
      change ClientView cfg c _ _ (Roster.push t.known c d c) _
      rw [Roster.push, Function.update_self]
      exact (h.1.client c).append ha.name
    · simp [Roster.push, hx]
  · have hg : GreetingOf cfg c (recvMsg (sockAddr (cfg.endpoint c))
        (wireOf (backSynMsg b a (own.addr, own.port) own.name))) := by
      rw [GreetingOf, ← ho]
      exact ⟨_, (ha.backSyn hown (ho ▸ (cfg.name c).noNul)).recvMsg⟩
    refine (hf.reply (d := d) (W := fun q => waiting (cfg.endpoint c) (cfg.socket q)
      [backSynMsg b a (own.addr, own.port) own.name]) (fun _ _ => rfl) hg ?_ ?_).congr rfl rfl rfl
    · refine waiting_singleton.trans (if_neg ?_)
      rw [hdest]
      exact cfg.endpoint_ne_server d
    · intro x
      refine waiting_singleton.trans (if_congr ?_ rfl rfl)
      rw [hdest]
      exact cfg.endpoint_injective.eq_iff.trans eq_comm

theorem follows_update {d : ι} (hr : t.down c = .update d :: rest)
    (hm : NoticeOf cfg b (.update d)) :
    ∃ t₁ P, Follows cfg s (.handle (some c)) (s.setProc (some c) u) t t₁ P := by
  have hv := h.1.client c
  rw [hB.called c (hB.seen_of_head hr)] at hv
  obtain ⟨own, hi, ho, hst⟩ := hv.exists_own
  rw [if_pos rfl] at ho
  obtain ⟨a, ha, hae⟩ := hm
  cases hs : t.status c with
  | login =>
      rw [hs] at hst
      obtain ⟨-, hL⟩ := hT.spec (client_update_login hi hst ha.toCarries)
      by_cases hd : d = c
      · subst hd
        rw [if_pos ho] at hL
        exact follows_status h hT hf .online hi hr ⟨a, ha, hae⟩ hL (.confirmed d rest hr hs)
      · rw [if_neg (fun he => hd (cfg.bytes_injective (ho.symm.trans he)).symm)] at hL
        exact follows_status h hT hf .null hi hr ⟨a, ha, hae⟩ hL (.mistaken c d rest hr hs hd)
  | null =>
      rw [hs] at hst
      obtain ⟨-, hL⟩ := hT.spec (client_update_null hi hst ha.toCarries)
      exact follows_stale h hT hf hr ⟨a, ha, hae⟩ (by simp [hs]) (by simp [hs]) hL
  | online =>
      rw [hs] at hst
      obtain ⟨-, hu⟩ := hT.spec (client_update_online hi hst (ho ▸ (cfg.name c).fits) ha
        (cfg.name_ordinary d).2.1 (cfg.name d).fits)
      rcases hu with ⟨hn, hL⟩ | ⟨hn, hL⟩
      · exact follows_stale h hT hf hr ⟨a, ha, hae⟩ (by simp [hs]) (fun _ => hv.mem_names.mp hn) hL
      · have hn' : ¬ (d = c ∨ d ∈ t.known c) := fun hd => hn (hv.mem_names.mpr hd)
        rw [not_or] at hn'
        exact follows_newcomer h hT hf hr hs hn'.1 hn'.2 ha hae ho hL

theorem follows_parting {d : ι} (hr : t.down c = .logout d :: rest)
    (hm : NoticeOf cfg b (.logout d)) :
    ∃ t₁ P, Follows cfg s (.handle (some c)) (s.setProc (some c) u) t t₁ P := by
  have hcalled := hB.called c (hB.seen_of_head hr)
  have hv := h.1.client c
  rw [hcalled] at hv
  obtain ⟨own, hi, ho, hst⟩ := hv.exists_own
  rw [if_pos rfl] at ho
  have hparted (hd : d ≠ c) (hL : Process.Leaves { s.proc (some c) with recvList := r } u
      (eraseUser (cfg.bytes d) (s.proc (some c)).userList) [] (s.proc (some c)).runnerEnd) :
      ∃ t₁ P, Follows cfg s (.handle (some c)) (s.setProc (some c) u) t t₁ P := by
    refine follows_silent h hT hL (answer_hear hT hr hm) (.parted c d rest hr hd)
      (hf.congr rfl rfl rfl) ?_ (h.1.ended c) rfl rfl rfl (fun x hx => ⟨rfl, by simp [hx], rfl⟩)
    change ClientView cfg c (t.called c) (t.status c) (Function.update t.known c _ c) _
    rw [Function.update_self, hcalled]
    exact hv.erase hd
  obtain ⟨-, hu⟩ := hT.spec (client_logout hi hm)
  rcases hu with ⟨hn, hL⟩ | ⟨hn, hL⟩ | ⟨hn, hL⟩
  · refine hparted (fun hd => hn (hv.mem_names.mpr (.inl hd))) ?_
    rwa [eraseUser_of_notMem hn]
  · obtain rfl : d = c := cfg.bytes_injective (hn.symm.trans ho)
    refine follows_silent h hT hL (answer_hear hT hr hm) (.expelled d rest hr)
      (hf.congr rfl rfl rfl) ?_ (Function.update_self ..) rfl rfl rfl
      (fun x hx => ⟨by simp [hx], rfl, by simp [hx]⟩)
    change ClientView cfg d (t.called d) (Function.update t.status d _ d) (t.known d) _
    rw [Function.update_self]
    exact (h.1.client d).setStatus hi
  · exact hparted (fun hd => hn (by rw [ho, hd])) hL

end Client

section ClientStep

variable {cfg : Config ι} {s s' : System ι} {t : Roster.State ι} {c : ι}

theorem follows_greeting {a : ι} {b : Bytes} {r : MsgQueue} {u : Process} (h : Simulates cfg s t)
    (hB : Roster.Basic t) (hT : Taken cfg s (some a) (some c) b r u) :
    ∃ t₁ P, Follows cfg s (.handle (some c)) (s.setProc (some c) u) t t₁ P := by
  obtain ⟨hpos, hg, hf⟩ := h.2.greet (System.pipe_pop hT.head hT.sender)
  have hans : Answer cfg s t (.handle (some c)) (.greet a c) :=
    .greet a c b (by simp [hT.head]) hg hpos
  have hcalled := hB.called c (hB.peer a c hpos).2
  have hv := h.1.client c
  rw [hcalled] at hv
  obtain ⟨x, hx⟩ := hg
  obtain ⟨-, hu⟩ := hT.spec (client_backSyn hx (cfg.name a).fits)
  rcases hu with ⟨hn, hL⟩ | ⟨hn, hL⟩
  · exact follows_silent h hT hL hans (.regreeted a c hpos (hv.mem_names.mp hn)) hf (h.1.client c)
      (h.1.ended c) rfl rfl rfl (fun _ _ => ⟨rfl, rfl, rfl⟩)
  · have hn' : ¬ (a = c ∨ a ∈ t.known c) := fun ha => hn (hv.mem_names.mpr ha)
    rw [not_or] at hn'
    refine follows_silent h hT hL hans (.greeted a c hpos hn'.1 hn'.2) (hf.congr rfl rfl rfl) ?_
      (h.1.ended c) rfl rfl rfl (fun y hy => ⟨rfl, by simp [Roster.push, hy], rfl⟩)
    change ClientView cfg c _ _ (Roster.push t.known c a c) _
    rw [Roster.push, Function.update_self]
    exact (h.1.client c).append hx.name

theorem follows_handle_client (h : Simulates cfg s t) (hB : Roster.Basic t)
    (he : s.execute cfg (.handle (some c)) = some s') :
    ∃ t₁ P, Follows cfg s (.handle (some c)) s' t t₁ P := by
  obtain ⟨p, b, r, u, hT, rfl⟩ := taken_of_execute h.1 he
  cases p with
  | some a => exact follows_greeting h hB hT
  | none =>
      obtain ⟨m, rest, hr, hm, hf⟩ := h.2.hear (System.pipe_pop hT.head hT.sender)
      cases m with
      | reply =>
          obtain ⟨own, hi, -⟩ := (h.1.client c).exists_own
          obtain ⟨-, hL⟩ := hT.spec (client_login hi hm)
          rw [if_pos rfl] at hL
          exact follows_status h hT hf .login hi hr hm hL (.replied c rest hr)
      | error => exact absurd (by simp [hr]) (hB.error c)
      | update d => exact follows_update h hB hT hf hr hm
      | logout d => exact follows_parting h hB hT hf hr hm

end ClientStep

end Hatch.Net
