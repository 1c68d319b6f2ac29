import Hatch.NetAgreement
import Hatch.NetWords

/-!
# Lines of the chat

For every pair of clients, the words of the one that the other has shown, those on the way to it
and those that wait in the one's own list are a part of what has been typed: a sublist if the
network keeps the order of each sender and receiver, and a part of the multiset in any case.
-/

namespace Hatch.Net

open ByteLayout FaultProgram Prog TransitionSystem

variable {ι : Type}

def said (cfg : Config ι) (c : ι) (l : List (Bytes × Bytes)) : List Bytes :=
  (l.filter (fun x => x.1 = cfg.bytes c)).map Prod.snd

def words (l : List Bytes) : List Bytes := (l.filter (fun b => msgMsgType b = .text)).map msgText

def System.temp (s : System ι) (c : ι) : List Bytes := (s.proc (some c)).tempList.list

def Talk.onWay (cfg : Config ι) (s : Talk ι) (c d : ι) : List Bytes :=
  said cfg c (s.shown d) ++ words (s.sys.pipe cfg (some c) (some d)) ++ words (s.sys.temp c)

/-- To be a part of a list, in order or not. -/
structure PartOf (R : List Bytes → List Bytes → Prop) : Prop where
  nil : R [] []
  sublist : ∀ {l l' m : List Bytes}, l'.Sublist l → R l m → R l' m
  push : ∀ {l m : List Bytes} (w : Bytes), R l m → R (l ++ [w]) (m ++ [w])

theorem partOf_sublist : PartOf List.Sublist where
  nil := .slnil
  sublist h h' := h.trans h'
  push w h := h.append (.refl [w])

theorem partOf_subperm : PartOf List.Subperm where
  nil := .refl []
  sublist h h' := h.subperm.trans h'
  push w h := h.append (.refl [w])

section Words

variable {cfg : Config ι} {c : ι} {l l' : List Bytes} {x y : List (Bytes × Bytes)} {b : Bytes}

theorem words_append : words (l ++ l') = words l ++ words l' := by
  simp [words]

theorem words_sublist (h : l.Sublist l') : (words l).Sublist (words l') :=
  (h.filter _).map _

theorem words_eq_nil (h : ∀ b ∈ l, msgMsgType b ≠ .text) : words l = [] := by
  have hf : l.filter (fun b => msgMsgType b = .text) = [] := by
    rw [List.filter_eq_nil_iff]
    intro b hb
    simpa using h b hb
  rw [words, hf, List.map_nil]

theorem words_singleton (h : msgMsgType b = .text) : words [b] = [msgText b] := by
  simp [words, h]

theorem words_cons (h : msgMsgType b = .text) : words (b :: l) = msgText b :: words l := by
  simp [words, h]

theorem said_append : said cfg c (x ++ y) = said cfg c x ++ said cfg c y := by
  simp [said]

end Words

structure TalkInv (cfg : Config ι) (R : List Bytes → List Bytes → Prop) (s : Talk ι) : Prop where
  list : ∀ p, ListOf cfg s.sys.loginCalled p (s.sys.proc p).userList
  started : ∀ c, (s.sys.proc (some c)).startText = true → s.sys.loginCalled c = true
  origin : ∀ q, FromParty cfg (s.sys.recv q)
  source : ∀ d ∈ s.sys.net, ∃ p, d.src = cfg.socket p
  authentic : ∀ p q, ∀ b ∈ s.sys.pipe cfg p q, Authentic cfg s.sys.loginCalled p q b
  temp : ∀ c, ∀ b ∈ s.sys.temp c,
    s.sys.loginCalled c = true ∧ ∃ w, CarriesText b (cfg.bytes c) w
  named : ∀ d, ∀ x ∈ s.shown d, ∃ c, c ≠ d ∧ x.1 = cfg.bytes c
  lines : ∀ c d, R (s.onWay cfg c d) (s.typed c)

section Prints

variable {cfg : Config ι} {s : Process} {b : Bytes}

theorem prints_of_not_text (h : msgMsgType b ≠ .text) : s.prints b = [] :=
  if_neg (fun hc => h hc.2)

theorem prints_cases (s : Process) (b : Bytes) :
    s.prints b = [] ∨ s.prints b = [(msgUserName b, msgText b)] := by
  unfold Process.prints
  split
  · split
    · split
      · exact .inr rfl
      · exact .inl rfl
    · exact .inl rfl
  · exact .inl rfl

/-- A message prints at most its own line. -/
theorem said_prints_sublist (c : ι) (hb : msgUserName b = cfg.bytes c) :
    (said cfg c (s.prints b)).Sublist [msgText b] := by
  rcases prints_cases s b with h | h
  · rw [h]
    exact List.nil_sublist _
  · rw [h]
    simp [said, hb]

theorem said_prints_of_ne {c e : ι} (hb : msgUserName b = cfg.bytes e) (hc : c ≠ e) :
    said cfg c (s.prints b) = [] := by
  have hne : cfg.bytes e ≠ cfg.bytes c := fun h => hc (cfg.bytes_injective h).symm
  rcases prints_cases s b with h | h
  · rw [h]
    rfl
  · rw [h]
    simp [said, hb, hne]

end Prints

theorem talkInv_start {R : List Bytes → List Bytes → Prop} (hR : PartOf R) {cfg : Config ι}
    (hr : cfg.Regular) : TalkInv cfg R (.start cfg) := by
  have hnil (p q : Option ι) : (System.start cfg).pipe cfg p q = [] := by
    cases p <;> cases q <;> rfl
  refine ⟨?_, nofun, ?_, ?_, ?_, ?_, ?_, ?_⟩
  · intro p
    cases p with
    | none => exact ⟨serverUser, [], rfl, rfl, fun _ h => absurd h List.not_mem_nil⟩
    | some c =>
        exact ⟨serverUser, ownUser (cfg.ownerAddr c) clientInitName, [], [], rfl,
          ⟨rfl, rfl⟩, rfl, hr.own c, ⟨.online, rfl⟩, .nil, List.nodup_nil, List.not_mem_nil,
          fun _ h => absurd h List.not_mem_nil⟩
  · intro q b hb
    cases q <;> cases hb
  · exact fun d hd => absurd hd List.not_mem_nil
  · intro p q b hb
    change b ∈ (System.start cfg).pipe cfg p q at hb
    rw [hnil] at hb
    exact absurd hb List.not_mem_nil
  · exact fun c b hb => absurd hb List.not_mem_nil
  · exact fun d x hx => absurd hx List.not_mem_nil
  · intro c d
    change R (said cfg c [] ++ words ((System.start cfg).pipe cfg (some c) (some d)) ++ words []) []
    rw [hnil]
    exact hR.nil

variable [DecidableEq ι] {cfg : Config ι} {R : List Bytes → List Bytes → Prop} {s : Talk ι}
  {s' : System ι} {u : Process}

/-- What a party sends joins its pipes in order, as far as its queue takes it. -/
theorem System.pipe_sent_sublist (cfg : Config ι) {s : System ι} {q : Option ι} {ms : List Bytes}
    (hs : u.sendList = (s.proc q).sendList.pushAll ms) (x y : Option ι) :
    ((s.setProc q u).pipe cfg x y).Sublist
      (sending cfg q ms (s.popped cfg q u.recvList.list) x y) := by
  obtain ⟨sent, hsub, hlist, -⟩ := MsgQueue.pushAll_list (s.proc q).sendList ms
  have hsend : u.sendList.list = s.send q ++ sent := by rw [hs, hlist, System.send]
  rw [System.pipe_setProc, hsend, pipeOf_send]
  refine List.Sublist.append_left ?_ _
  split_ifs
  · exact (hsub.filter _).map _
  · exact .refl _

/-- A step of party `p`. -/
theorem TalkInv.setProc (h : TalkInv cfg R s) {p : Option ι} {typed : ι → List Bytes}
    {shown : ι → List (Bytes × Bytes)}
    (hlist : ListOf cfg s.sys.loginCalled p u.userList)
    (hstart : ∀ c, p = some c → u.startText = true → s.sys.loginCalled c = true)
    (hfrom : FromParty cfg u.recvList.list)
    (hsound : ∀ x y, ∀ b ∈ (s.sys.setProc p u).pipe cfg x y, Authentic cfg s.sys.loginCalled x y b)
    (htemp : ∀ c, p = some c → ∀ b ∈ u.tempList.list,
      s.sys.loginCalled c = true ∧ ∃ w, CarriesText b (cfg.bytes c) w)
    (hnamed : ∀ d, ∀ x ∈ shown d, ∃ c, c ≠ d ∧ x.1 = cfg.bytes c)
    (hlines : ∀ c d, R (Talk.onWay cfg ⟨s.sys.setProc p u, typed, shown⟩ c d) (typed c)) :
    TalkInv cfg R ⟨s.sys.setProc p u, typed, shown⟩ where
  list q := by
    by_cases hq : q = p
    · subst hq
      simpa [System.setProc] using hlist
    · simpa [System.setProc, hq] using h.list q
  started c := by
    by_cases hc : some c = p
    · subst hc
      simpa [System.setProc] using hstart c rfl
    · simpa [System.setProc, hc] using h.started c
  origin q := by
    change FromParty cfg ((s.sys.setProc p u).recv q)
    rw [System.recv_setProc]
    by_cases hq : q = p
    · subst hq
      rwa [Function.update_self]
    · rw [Function.update_of_ne hq]
      exact h.origin q
  source := h.source
  authentic := hsound
  temp c := by
    by_cases hc : some c = p
    · subst hc
      simpa [System.setProc, System.temp] using htemp c rfl
    · simpa [System.setProc, System.temp, hc] using h.temp c
  named := hnamed
  lines := hlines

/-! Steps that change no list of users and take no word. -/

omit [DecidableEq ι] in
theorem hatchPacketRecvProc_keeps {s : Process} {e : SockAddrIn} {d : Bytes} {a : Unit}
    (hu : hatchPacketRecvProc e d s = .ok (a, u)) :
    ∃ sent, u = { s with recvList := u.recvList } ∧ sent.Sublist [recvMsg e d] ∧
      u.recvList.list = s.recvList.list ++ sent := by
  by_cases hd : d = [] ∨ msgPacketMaxLength < d.length
  · rw [hatchPacketRecvProc, if_pos hd] at hu
    cases hu
    exact ⟨[], rfl, List.nil_sublist _, (List.append_nil _).symm⟩
  · obtain ⟨sent, h1, h2, h3, -⟩ := hatchPacketRecvProc_delivers hd hu
    exact ⟨sent, h1, h2, h3⟩

omit [DecidableEq ι] in
theorem TalkInv.transport (h : TalkInv cfg R s)
    (hcalled : s'.loginCalled = s.sys.loginCalled)
    (hproc : ∀ p, (s'.proc p).userList = (s.sys.proc p).userList ∧
      (s'.proc p).startText = (s.sys.proc p).startText ∧
      (s'.proc p).tempList = (s.sys.proc p).tempList)
    (horigin : ∀ q, FromParty cfg (s'.recv q)) (hsource : ∀ d ∈ s'.net, ∃ p, d.src = cfg.socket p)
    (hmem : ∀ x y, ∀ b ∈ s'.pipe cfg x y, b ∈ s.sys.pipe cfg x y)
    (hlines : ∀ c d, R (said cfg c (s.shown d) ++ words (s'.pipe cfg (some c) (some d)) ++
      words (s.sys.temp c)) (s.typed c)) : TalkInv cfg R { s with sys := s' } where
  list p := by
    change ListOf cfg s'.loginCalled p (s'.proc p).userList
    rw [hcalled, (hproc p).1]
    exact h.list p
  started c := by
    change (s'.proc (some c)).startText = true → s'.loginCalled c = true
    rw [hcalled, (hproc (some c)).2.1]
    exact h.started c
  origin := horigin
  source := hsource
  authentic x y b hb := by
    change Authentic cfg s'.loginCalled x y b
    rw [hcalled]
    exact h.authentic x y b (hmem x y b hb)
  temp c b hb := by
    change b ∈ (s'.proc (some c)).tempList.list at hb
    rw [(hproc (some c)).2.2] at hb
    change s'.loginCalled c = true ∧ _
    rw [hcalled]
    exact h.temp c b hb
  named := h.named
  lines c d := by
    change R (said cfg c (s.shown d) ++ words (s'.pipe cfg (some c) (some d)) ++
      words (s'.proc (some c)).tempList.list) (s.typed c)
    rw [(hproc (some c)).2.2]
    exact hlines c d

omit [DecidableEq ι] in
theorem TalkInv.lines_sublist (h : TalkInv cfg R s) (hR : PartOf R) {c d : ι} {l : List Bytes}
    (hl : l.Sublist (s.sys.pipe cfg (some c) (some d))) :
    R (said cfg c (s.shown d) ++ words l ++ words (s.sys.temp c)) (s.typed c) :=
  hR.sublist (((words_sublist hl).append_left _).append_right _) (h.lines c d)

theorem setProc_keeps {p : Option ι} {u : Process} {s : System ι}
    (hl : u.userList = (s.proc p).userList) (hs : u.startText = (s.proc p).startText)
    (ht : u.tempList = (s.proc p).tempList) (q : Option ι) :
    ((s.setProc p u).proc q).userList = (s.proc q).userList ∧
      ((s.setProc p u).proc q).startText = (s.proc q).startText ∧
      ((s.setProc p u).proc q).tempList = (s.proc q).tempList := by
  by_cases hq : q = p
  · subst hq
    simp [System.setProc, hl, hs, ht]
  · simp [System.setProc, hq]

theorem setProc_temp {p : Option ι} {u : Process} {s : System ι}
    (ht : u.tempList = (s.proc p).tempList) (q : Option ι) :
    ((s.setProc p u).proc q).tempList = (s.proc q).tempList := by
  by_cases hq : q = p
  · subst hq
    simp [System.setProc, ht]
  · simp [System.setProc, hq]

theorem TalkInv.origin_setProc (h : TalkInv cfg R s) {p : Option ι}
    (hu : FromParty cfg u.recvList.list) (q : Option ι) :
    FromParty cfg ((s.sys.setProc p u).recv q) := by
  rw [System.recv_setProc]
  by_cases hq : q = p
  · subst hq
    rwa [Function.update_self]
  · rw [Function.update_of_ne hq]
    exact h.origin q

/-- The process changes in nothing that matters here. -/
theorem TalkInv.keep (h : TalkInv cfg R s) {p : Option ι}
    (hl : u.userList = (s.sys.proc p).userList) (hs : u.startText = (s.sys.proc p).startText)
    (ht : u.tempList = (s.sys.proc p).tempList) (hr : u.recvList = (s.sys.proc p).recvList)
    (hq : u.sendList = (s.sys.proc p).sendList) :
    TalkInv cfg R { s with sys := s.sys.setProc p u } := by
  have hp : (s.sys.setProc p u).pipe cfg = s.sys.pipe cfg :=
    System.pipe_setProc_eq (congrArg MsgQueue.list hr) (congrArg MsgQueue.list hq)
  refine h.transport rfl (setProc_keeps hl hs ht) (h.origin_setProc ?_) h.source ?_ ?_
  · rw [hr]
    exact h.origin p
  · intro x y b hb
    rwa [hp] at hb
  · intro c d
    rw [hp]
    exact h.lines c d

variable (cfg) in
theorem System.pipe_transmit {s : System ι} {p : Option ι} {b : Bytes} {q : MsgQueue}
    (hq : (s.proc p).sendList.pop = some (b, q)) : System.pipe cfg
      { s.setProc p { s.proc p with sendList := q } with
        net := s.net ++ [⟨cfg.socket p, (msgFromAddr b).endpoint, wireOf b⟩] } = s.pipe cfg := by
  funext x y
  change pipeOf cfg (s.setProc p _).recv (s.setProc p _).send _ x y = _
  rw [System.recv_setProc, System.send_setProc]
  change pipeOf cfg (Function.update s.recv p (s.recv p)) _ _ x y = _
  rw [Function.update_eq_self]
  exact pipeOf_transmit (MsgQueue.pop_eq_some hq).1 x y

theorem TalkInv.transmit (h : TalkInv cfg R s) {p : Option ι}
    (he : s.sys.execute cfg (.transmit p) = some s') : TalkInv cfg R { s with sys := s' } := by
  simp only [System.execute] at he
  split at he
  · rename_i b q hq
    obtain rfl := Option.some.inj he
    have hp := System.pipe_transmit cfg hq
    refine h.transport rfl (setProc_keeps rfl rfl rfl) (h.origin_setProc (h.origin p)) ?_ ?_ ?_
    · intro d hd
      rcases List.mem_append.mp hd with hd | hd
      · exact h.source d hd
      · exact ⟨p, by rw [List.mem_singleton.mp hd]⟩
    · intro x y b hb
      rwa [hp] at hb
    · intro c d
      rw [hp]
      exact h.lines c d
  · cases he

omit [DecidableEq ι] in
theorem TalkInv.fewer (h : TalkInv cfg R s) (hR : PartOf R) {i : ℕ} {d : Datagram}
    (hd : s.sys.net[i]? = some d) :
    TalkInv cfg R { s with sys := { s.sys with net := s.sys.net.eraseIdx i } } := by
  have hold := System.pipe_split cfg hd
  have hsub (x y : Option ι) : (System.pipe cfg { s.sys with net := s.sys.net.eraseIdx i } x
      y).Sublist (s.sys.pipe cfg x y) := by
    rw [hold.1, hold.2]
    exact pipeOf_lose x y
  refine h.transport rfl (fun _ => ⟨rfl, rfl, rfl⟩) h.origin ?_ ?_ ?_
  · exact fun e he => h.source e (List.mem_of_mem_eraseIdx he)
  · exact fun x y b hb => (hsub x y).subset hb
  · exact fun c d => h.lines_sublist hR (hsub _ _)

theorem TalkInv.abandon (h : TalkInv cfg R s) (hR : PartOf R) {q : Option ι}
    (he : s.sys.execute cfg (.abandon q) = some s') : TalkInv cfg R { s with sys := s' } := by
  simp only [System.execute] at he
  split at he
  · rename_i b r hr
    simp only [Option.ite_none_right_eq_some, Option.some.injEq] at he
    obtain ⟨-, rfl⟩ := he
    obtain ⟨hl, -⟩ := MsgQueue.pop_eq_some hr
    have hb : s.sys.recv q = b :: r.list := hl
    obtain ⟨p, hp⟩ := h.origin q b (by simp [hb])
    have hsub (x y : Option ι) : ((s.sys.setProc q { s.sys.proc q with recvList := r }).pipe cfg x
        y).Sublist (s.sys.pipe cfg x y) := by
      have hpipe : (s.sys.setProc q { s.sys.proc q with recvList := r }).pipe cfg x y =
          s.sys.popped cfg q r.list x y := by
        rw [System.pipe_setProc]
        change pipeOf cfg _ (Function.update s.sys.send q (s.sys.send q)) _ x y = _
        rw [Function.update_eq_self]
        rfl
      rw [hpipe, System.pipe_pop hb hp]
      exact List.sublist_append_right _ _
    refine h.transport rfl (setProc_keeps rfl rfl rfl) (h.origin_setProc ?_) h.source ?_ ?_
    · exact fun b' hb' => h.origin q b' (by rw [hb]; exact List.mem_cons_of_mem _ hb')
    · exact fun x y b hb => (hsub x y).subset hb
    · exact fun c d => h.lines_sublist hR (hsub _ _)
  · cases he

/-- A datagram arrives; what is on the way may change its order. -/
theorem TalkInv.deliver (h : TalkInv cfg R s) (hR : PartOf R) {q : Option ι} {i : ℕ}
    (hG : (∀ {l l' m : List Bytes}, l.Perm l' → R l m → R l' m) ∨
      InOrder s.sys (.deliver q i : SystemAction ι))
    (he : s.sys.execute cfg (.deliver q i) = some s') : TalkInv cfg R { s with sys := s' } := by
  simp only [System.execute] at he
  split at he
  · rename_i d hd
    split_ifs at he with hq
    obtain ⟨a, u, hu, rfl⟩ := System.runOn_eq_some he
    obtain ⟨x₀, hx₀⟩ := h.source d (List.mem_of_getElem? hd)
    have hold := System.pipe_split cfg hd
    obtain ⟨sent, hu', hsub, hrecv⟩ := hatchPacketRecvProc_keeps hu
    have hpipe : System.pipe cfg (System.setProc { s.sys with net := s.sys.net.eraseIdx i } q u) =
        pipeOf cfg (Function.update s.sys.recv q (s.sys.recv q ++ sent)) s.sys.send
          (s.sys.net.take i ++ s.sys.net.drop (i + 1)) := by
      rw [System.pipe_setProc, hrecv, hu', ← (net_split hd).2]
      exact congrArg (pipeOf cfg _ · _) (Function.update_eq_self q s.sys.send)
    have hfrom : FromParty cfg u.recvList.list := by
      rw [hrecv]
      intro b hb
      rcases List.mem_append.mp hb with hb | hb
      · exact h.origin q b hb
      · rw [List.mem_singleton.mp (hsub.subset hb), msgFromAddr_recvMsg]
        exact ⟨x₀, hx₀⟩
    have hsource : ∀ e ∈ s.sys.net.eraseIdx i, ∃ p, e.src = cfg.socket p :=
      fun e he => h.source e (List.mem_of_mem_eraseIdx he)
    refine h.transport rfl ?_ ?_ hsource ?_ ?_
    · rw [hu']
      exact setProc_keeps (s := { s.sys with net := s.sys.net.eraseIdx i }) rfl rfl rfl
    · exact (h.fewer hR hd).origin_setProc hfrom
    · intro x y b hb
      rw [hpipe] at hb
      rw [hold.1]
      rcases List.sublist_singleton.mp hsub with rfl | rfl
      · rw [List.append_nil, Function.update_eq_self] at hb
        exact (pipeOf_lose x y).subset hb
      · exact (pipeOf_deliver hq x y).1.subset hb
    · intro c e
      rw [hpipe]
      rcases List.sublist_singleton.mp hsub with rfl | rfl
      · rw [List.append_nil, Function.update_eq_self]
        refine h.lines_sublist hR ?_
        rw [hold.1]
        exact pipeOf_lose _ _
      · have hl := h.lines c e
        rw [Talk.onWay, hold.1] at hl
        rcases hG with hG | hG
        · refine hG ?_ hl
          have hp : (pipeOf cfg s.sys.recv s.sys.send
              (s.sys.net.take i ++ d :: s.sys.net.drop (i + 1)) (some c) (some e)).Perm _ :=
            (pipeOf_deliver hq (some c) (some e)).1.symm
          exact (((hp.filter _).map _).append_left _).append_right _
        · rw [(pipeOf_deliver hq (some c) (some e)).2 (hG d hd)]
          exact hl
  · cases he

/-! Handled messages. -/

omit [DecidableEq ι] in
theorem foldl_effect_tempList (p : Process) (es : List Effect) :
    (es.foldl Process.effect p).tempList = p.tempList := by
  induction es generalizing p with
  | nil => rfl
  | cons e es ih =>
      rw [List.foldl_cons, ih]
      cases e <;> rfl

omit [DecidableEq ι] in
/-- No handler touches the list of typed words. -/
theorem tempList_of_run {q : Option ι} {b : Bytes} {s : Process} {a : ℤ}
    (hr : hatchMsgProc (protocolOf q) b s = .ok (a, u)) : u.tempList = s.tempList := by
  have hP : protocolOf q = serverProtocol ∨ protocolOf q = clientProtocol := by
    cases q with
    | none => exact .inl rfl
    | some c => exact .inr rfl
  obtain ⟨es, he⟩ := wp_true_of_run hr (hatchMsgProc_effects hP b s)
  simp only [Process.channels, Prod.mk.injEq] at he
  rw [he.2.2.1, foldl_effect_tempList]

theorem handled_of_execute {s : System ι} {q : Option ι}
    (he : s.execute cfg (.handle q) = some s') :
    ∃ b r u a, (s.proc q).recvList.pop = some (b, r) ∧
      hatchMsgProc (protocolOf q) b { s.proc q with recvList := r } = .ok (a, u) ∧
      s' = s.setProc q u := by
  simp only [System.execute] at he
  split at he
  · rename_i b r hr
    obtain ⟨a, u, hu, rfl⟩ := System.runOn_eq_some he
    refine ⟨b, r, u, a, hr, ?_, ?_⟩
    · simpa [System.setProc] using hu
    · simp [System.setProc]
  · cases he

section Handle

variable {q : Option ι} {b : Bytes} {r : MsgQueue} {p : Option ι} {ms : List Bytes}

variable (cfg) in
/-- After the messages `ms`, none of them a word, a pipe holds no more words than before. -/
theorem words_sent_sublist (hs : u.sendList = (s.sys.proc q).sendList.pushAll ms)
    (hr : u.recvList = r)
    (hms : ∀ y, ∀ x ∈ waiting (cfg.socket q) (cfg.socket y) ms, msgMsgType x ≠ .text)
    (x y : Option ι) :
    (words ((s.sys.setProc q u).pipe cfg x y)).Sublist (words (s.sys.popped cfg q r.list x y)) := by
  have hsub := words_sublist (System.pipe_sent_sublist cfg hs x y)
  have hnil : words (if x = q then waiting (cfg.socket q) (cfg.socket y) ms else []) = [] := by
    apply words_eq_nil
    intro b hb
    split_ifs at hb
    · exact hms y b hb
    · exact absurd hb List.not_mem_nil
  rw [hr, sending, words_append, hnil, List.append_nil] at hsub
  exact hsub

variable (h : TalkInv cfg R s) (hb : s.sys.recv q = b :: r.list)
  (hp : (msgFromAddr b).endpoint = cfg.socket p)
include h hb hp

theorem TalkInv.authentic_head : Authentic cfg s.sys.loginCalled p q b := by
  apply h.authentic p q b
  rw [System.pipe_pop hb hp, if_pos ⟨rfl, rfl⟩]
  simp

/-- A line that is printed is one of its sender. -/
theorem TalkInv.named_prints {c : ι} (hq : q = some c) :
    ∀ x ∈ s.shown c ++ (s.sys.proc (some c)).prints b, ∃ e, e ≠ c ∧ x.1 = cfg.bytes e := by
  intro x hx
  rcases List.mem_append.mp hx with hx | hx
  · exact h.named c x hx
  · by_cases ht : msgMsgType b = .text
    · obtain ⟨e, d, w, -, hd, hed, hc⟩ := (h.authentic_head hb hp).text ht
      rw [hq] at hd
      obtain rfl := Option.some.inj hd
      refine ⟨e, hed, ?_⟩
      rcases prints_cases (s.sys.proc (some c)) b with hpr | hpr
      · rw [hpr] at hx
        exact absurd hx List.not_mem_nil
      · rw [hpr] at hx
        rw [List.mem_singleton.mp hx]
        exact hc.name
    · rw [prints_of_not_text ht] at hx
      exact absurd hx List.not_mem_nil

/-- The word of a message that is taken is shown, or lost. -/
theorem TalkInv.lines_taken {c d : ι} (hq : q = some d) :
    (said cfg c (s.shown d ++ (s.sys.proc (some d)).prints b) ++
      words (s.sys.popped cfg q r.list (some c) (some d))).Sublist
    (said cfg c (s.shown d) ++ words (s.sys.pipe cfg (some c) (some d))) := by
  rw [said_append, List.append_assoc, System.pipe_pop hb hp (some c) (some d)]
  refine List.Sublist.append_left ?_ _
  by_cases ht : msgMsgType b = .text
  · obtain ⟨e, d', w, he, hd', hed, hc⟩ := (h.authentic_head hb hp).text ht
    by_cases hce : c = e
    · subst hce
      rw [if_pos ⟨he.symm, hq.symm⟩, List.singleton_append]
      have hw : words (b :: s.sys.popped cfg q r.list (some c) (some d)) =
          [msgText b] ++ words (s.sys.popped cfg q r.list (some c) (some d)) := by
        rw [← List.singleton_append, words_append, words_singleton ht]
      rw [hw]
      exact (said_prints_sublist c hc.name).append_right _
    · have hne : ¬ (some c = p ∧ some d = q) := by
        rintro ⟨h1, -⟩
        exact hce (Option.some.inj (h1.trans he))
      rw [said_prints_of_ne hc.name hce, if_neg hne]
      exact .refl _
  · rw [prints_of_not_text ht, words_append]
    exact List.sublist_append_right _ _

end Handle

theorem TalkInv.handle (h : TalkInv cfg R s) (hR : PartOf R) (hreg : cfg.Regular) {q : Option ι}
    (he : s.sys.execute cfg (.handle q) = some s') :
    TalkInv cfg R { s with sys := s', shown := s.printed (.handle q) } := by
  obtain ⟨b, r, u, a, hpop, hrun, rfl⟩ := handled_of_execute he
  obtain ⟨hl, -⟩ := MsgQueue.pop_eq_some hpop
  have hb : s.sys.recv q = b :: r.list := hl
  obtain ⟨p, hp⟩ := h.origin q b (by simp [hb])
  have hsound := h.authentic_head hb hp
  obtain ⟨ms, hlist, ⟨hrecv, hsend, hms, -⟩, -⟩ := (wp_of_run hrun _).mp
    (party_takes (s := { s.sys.proc q with recvList := r }) hreg hsound hp (h.list q))
  have htemp : u.tempList = (s.sys.proc q).tempList := (tempList_of_run hrun).trans rfl
  have hpipe (x y : Option ι) := System.pipe_sent_sublist cfg (s := s.sys) hsend x y
  have hwords := words_sent_sublist cfg (s := s) (r := r) hsend hrecv
    (fun y x hx => (hms y x hx).2.1)
  refine h.setProc hlist ?_ ?_ ?_ ?_ ?_ ?_
  · rintro c rfl -
    exact hsound.receiver_called
  · rw [hrecv]
    exact fun b' hb' => h.origin q b' (by rw [hb]; exact List.mem_cons_of_mem _ hb')
  · intro x y b' hb'
    have hm := (hpipe x y).subset hb'
    rw [hrecv, sending] at hm
    rcases List.mem_append.mp hm with hm | hm
    · apply h.authentic x y b'
      rw [System.pipe_pop hb hp]
      exact List.mem_append_right _ hm
    · split_ifs at hm with hx
      · rw [hx]
        exact (hms y b' hm).1
      · exact absurd hm List.not_mem_nil
  · rintro c rfl
    rw [htemp]
    exact h.temp c
  · intro d
    cases q with
    | none => exact h.named d
    | some c =>
        simp only [Talk.printed, hpop, Talk.shows]
        by_cases hd : d = c
        · subst hd
          rw [Function.update_self]
          exact h.named_prints hb hp rfl
        · rw [Function.update_of_ne hd]
          exact h.named d
  · intro c d
    have ht : (s.sys.setProc q u).temp c = s.sys.temp c :=
      congrArg MsgQueue.list (setProc_temp htemp (some c))
    have hgoal : (said cfg c (s.printed (.handle q) d) ++
        words ((s.sys.setProc q u).pipe cfg (some c) (some d))).Sublist
        (said cfg c (s.shown d) ++ words (s.sys.pipe cfg (some c) (some d))) := by
      by_cases hd : q = some d
      · have hs : s.printed (.handle q) d = s.shown d ++ (s.sys.proc (some d)).prints b := by
          subst hd
          simp only [Talk.printed, hpop, Talk.shows, Function.update_self]
        rw [hs]
        exact ((hwords _ _).append_left _).trans (h.lines_taken hb hp hd)
      · have hs : s.printed (.handle q) d = s.shown d := by
          cases q with
          | none => rfl
          | some e =>
              have hde : d ≠ e := fun hde => hd (by rw [hde])
              simp only [Talk.printed, hpop, Talk.shows, Function.update_of_ne hde]
        rw [hs]
        refine ((hwords _ _).trans (words_sublist ?_)).append_left _
        rw [System.pipe_pop hb hp]
        exact List.sublist_append_right _ _
    change R (_ ++ words ((s.sys.setProc q u).temp c)) _
    rw [ht]
    exact hR.sublist (hgoal.append_right _) (h.lines c d)

/-! The calls of the user. -/

omit [DecidableEq ι] in
/-- A call touches neither the list of typed words nor the event of the text runner. -/
theorem hatchClientRequest_keeps (t : MsgType) (n : Option Bytes) (s : Process) :
    wp (hatchClientRequest t n) True
      (fun _ v => v.tempList = s.tempList ∧ v.startText = s.startText) s := by
  rw [hatchClientRequest, wp_bind, wp_hatchLocateUser_none]
  split
  · cases n with
    | none =>
        rw [wp_bind, wp_userAt]
        split
        · rw [wp_bind, wp_get, wp_hatchPushSendMsgList_fresh]
          split <;> exact ⟨rfl, rfl⟩
        · trivial
    | some n =>
        rw [wp_bind, hatchSetNameAt, wp_bind, wp_userAt]
        split
        · rw [wp_bind, wp_hatchSetUserName]
          split
          · rw [wp_modify, wp_bind, wp_get, wp_hatchPushSendMsgList_fresh]
            split <;> exact ⟨rfl, rfl⟩
          · trivial
        · trivial
  · trivial

omit [DecidableEq ι] in
/-- A request is authentic once it is called. -/
theorem authentic_request (called : ι → Bool) {c : ι} {t : MsgType} {junk : ℕ → UInt8}
    (hc : called c = true) (ht : t = .login ∨ t = .logout) (y : Option ι) (x : Bytes)
    (hx : x ∈ waiting (cfg.socket (some c)) (cfg.socket y) [requestMsg junk t (cfg.bytes c)]) :
    Authentic cfg called (some c) y x ∧ msgMsgType x = t := by
  have hk : ∀ k, t ≠ .other k := by
    rcases ht with rfl | rfl <;> simp
  have hreq : Carries (requestMsg junk t (cfg.bytes c)) t (cfg.bytes c) :=
    carries_requestMsg hk (cfg.name c).noNul (cfg.name c).fits
  obtain ⟨m, hm, hd, rfl⟩ := mem_waiting.mp hx
  obtain rfl := List.mem_singleton.mp hm
  have hd' : serverEndpoint = cfg.socket y :=
    (msgFromAddr_requestMsg (cfg.name c).fits).symm.trans hd
  obtain rfl : none = y := cfg.socket_injective hd'
  have hrecv : Carries (recvMsg (sockAddr (cfg.socket (some c)))
    (wireOf (requestMsg junk t (cfg.bytes c)))) t (cfg.bytes c) := hreq.recvMsg
  refine ⟨?_, hrecv.msgType⟩
  rcases ht with rfl | rfl
  · exact .login c hc hrecv
  · exact .logout c hc hrecv

/-- The pipes after a call that sends a request. -/
theorem TalkInv.called (called : ι → Bool) {c : ι} {t : MsgType} {junk : ℕ → UInt8}
    (h : TalkInv cfg R s) (hR : PartOf R)
    (hm : ∀ d, s.sys.loginCalled d = true → called d = true) (hc : called c = true)
    (ht : t = .login ∨ t = .logout) (hr : u.recvList = (s.sys.proc (some c)).recvList)
    (hs : u.sendList = (s.sys.proc (some c)).sendList.pushAll [requestMsg junk t (cfg.bytes c)])
    (htemp : u.tempList = (s.sys.proc (some c)).tempList) :
    (∀ x y, ∀ b ∈ (s.sys.setProc (some c) u).pipe cfg x y, Authentic cfg called x y b) ∧
      ∀ e d, R (Talk.onWay cfg { s with sys := s.sys.setProc (some c) u } e d) (s.typed e) := by
  have hpipe (x y : Option ι) := System.pipe_sent_sublist cfg (s := s.sys) hs x y
  have hpop : s.sys.popped cfg (some c) u.recvList.list = s.sys.pipe cfg :=
    System.popped_called hr
  have hwords := words_sent_sublist cfg (s := s) hs rfl
    (fun y x hx => by
      rw [(authentic_request called hc ht y x hx).2]
      rcases ht with rfl | rfl <;> simp)
  rw [hpop] at hwords
  constructor
  · intro x y b hb
    have hb' := (hpipe x y).subset hb
    rw [hpop, sending] at hb'
    rcases List.mem_append.mp hb' with hb' | hb'
    · exact (h.authentic x y b hb').mono hm
    · split_ifs at hb' with hx
      · rw [hx]
        exact (authentic_request called hc ht y b hb').1
      · exact absurd hb' List.not_mem_nil
  · intro e d
    have hte : (s.sys.setProc (some c) u).temp e = s.sys.temp e :=
      congrArg MsgQueue.list (setProc_temp htemp (some e))
    change R (_ ++ words ((s.sys.setProc (some c) u).temp e)) _
    rw [hte]
    exact hR.sublist (((hwords _ _).append_left _).append_right _) (h.lines e d)

theorem TalkInv.logout (h : TalkInv cfg R s) (hR : PartOf R) {c : ι}
    (he : s.sys.execute cfg (.logout c) = some s') : TalkInv cfg R { s with sys := s' } := by
  simp only [System.execute, Option.ite_none_right_eq_some, Option.map_eq_some_iff] at he
  obtain ⟨hc, s₁, hs₁, rfl⟩ := he
  obtain ⟨a, u, hu, rfl⟩ := System.runOn_eq_some hs₁
  obtain ⟨v, own, us, peers, hl, hk⟩ := h.list (some c)
  have hi : (s.sys.proc (some c)).userList[1]? = some own := by rw [hl]; rfl
  have hL := (wp_of_run hu _).mp (hatchClientLogout_leaves hi)
  rw [hk.name, if_pos hc] at hL
  obtain ⟨htemp, hstart⟩ := wp_true_of_run hu (hatchClientRequest_keeps _ _ _)
  obtain ⟨hsound, hlines⟩ := h.called _ hR (fun _ hd => hd) hc (.inr rfl) hL.recvList
    hL.sendList htemp
  have hi : TalkInv cfg R { s with sys := s.sys.setProc (some c) u } := by
    refine h.setProc ?_ ?_ ?_ hsound ?_ h.named hlines
    · rw [hL.userList]
      exact h.list (some c)
    · exact fun d hd _ => Option.some.inj hd ▸ hc
    · rw [hL.recvList]
      exact h.origin (some c)
    · intro d hd
      obtain rfl := Option.some.inj hd
      rw [htemp]
      exact h.temp c
  exact ⟨hi.list, hi.started, hi.origin, hi.source, hi.authentic, hi.temp, hi.named, hi.lines⟩

theorem TalkInv.login (h : TalkInv cfg R s) (hR : PartOf R) {c : ι}
    (he : s.sys.execute cfg (.login c) = some s') : TalkInv cfg R { s with sys := s' } := by
  simp only [System.execute, Option.ite_none_left_eq_some, Option.map_eq_some_iff] at he
  obtain ⟨hc, s₁, hs₁, rfl⟩ := he
  obtain ⟨a, u, hu, rfl⟩ := System.runOn_eq_some hs₁
  obtain ⟨v, own, us, peers, hl, hk⟩ := h.list (some c)
  have hi : (s.sys.proc (some c)).userList[1]? = some own := by rw [hl]; rfl
  have hL := (wp_of_run hu _).mp (hatchClientLogin_leaves hi (cfg.name c))
  obtain ⟨htemp, hstart⟩ := wp_true_of_run hu (hatchClientRequest_keeps _ _ _)
  have hm (d : ι) (hd : s.sys.loginCalled d = true) :
      Function.update s.sys.loginCalled c true d = true := by
    by_cases hdc : d = c
    · rw [hdc, Function.update_self]
    · rwa [Function.update_of_ne hdc]
  have hself : Function.update s.sys.loginCalled c true c = true := Function.update_self ..
  obtain ⟨hsound, hlines⟩ := h.called (Function.update s.sys.loginCalled c true) hR hm
    hself (.inl rfl) hL.recvList hL.sendList htemp
  refine ⟨?_, ?_, ?_, h.source, hsound, ?_, h.named, hlines⟩
  · intro p
    change ListOf cfg (Function.update s.sys.loginCalled c true) p
      ((s.sys.setProc (some c) u).proc p).userList
    by_cases hp : p = some c
    · subst hp
      have hu' : ((s.sys.setProc (some c) u).proc (some c)).userList =
          v :: { own with name := cfg.bytes c } :: us := by
        simp only [System.setProc, Function.update_self]
        rw [hL.userList, hl]
        rfl
      rw [hu']
      refine ⟨v, _, us, peers, rfl, hk.server, ?_, hk.addr, hk.status, hk.entries, hk.nodup,
        hk.others, fun e he => hm e (hk.called e he)⟩
      rw [if_pos hself]
    · have hu' : ((s.sys.setProc (some c) u).proc p).userList = (s.sys.proc p).userList := by
        simp [System.setProc, hp]
      rw [hu']
      refine (h.list p).mono hm ?_
      rintro d rfl
      exact Function.update_of_ne (fun hd => hp (by rw [hd])) ..
  · intro d hd
    by_cases hdc : d = c
    · rw [hdc]
      exact hself
    · refine hm d (h.started d ?_)
      have hne : some d ≠ some c := fun hs => hdc (Option.some.inj hs)
      simpa [System.setProc, hne] using hd
  · refine h.origin_setProc ?_
    rw [hL.recvList]
    exact h.origin (some c)
  · intro d b hb
    have ht : (s.sys.setProc (some c) u).temp d = s.sys.temp d :=
      congrArg MsgQueue.list (setProc_temp htemp (some d))
    change b ∈ (s.sys.setProc (some c) u).temp d at hb
    rw [ht] at hb
    obtain ⟨hd, hw⟩ := h.temp d b hb
    exact ⟨hm d hd, hw⟩

/-! Words. -/

omit [DecidableEq ι] in
theorem hatchTextProc_pushes {s : Process} {own : UserInfo} (hi : s.userList[1]? = some own)
    {w : Bytes} (hw : w ≠ closeText) :
    wp (hatchTextProc w) True (fun _ v => offMsgText + w.length + 1 ≤ msgPacketMaxLength ∧
      ∃ k, v = { s with
        userLock := k, tempList := (s.tempList.push (textMsg own.name w)).2 }) s := by
  rw [hatchTextProc, wp_bind, wp_hatchLocateUser_none, if_pos (ne_nil_of_getElem? hi), wp_bind,
    wp_userAt, hi]
  change wp _ _ _ _
  rw [wp_bind, wp_require, if_neg hw]
  split
  · rename_i hl
    rw [hatchPushTempMsgList, wp_bind, wp_get, wp_bind, wp_modify, wp_pure]
    exact ⟨hl, _, rfl⟩
  · trivial

def Process.queues (p : Process) (k : CriticalSection) (m : Bytes) : Process :=
  { p with userLock := k, tempList := p.tempList.pushAll [m] }

/-- A word that is typed goes to the client's own list, unless that is full. -/
theorem TalkInv.typed_of_execute (h : TalkInv cfg R s) {c : ι} {w : Bytes} {t : Talk ι}
    (he : s.execute cfg (.text c w) = some t) : ∃ m k, s.sys.loginCalled c = true ∧
      CarriesText m (cfg.bytes c) w ∧
      t = ⟨s.sys.setProc (some c) ((s.sys.proc (some c)).queues k m),
        Function.update s.typed c (s.typed c ++ [w]), s.shown⟩ := by
  simp only [Talk.execute, Option.ite_none_right_eq_some, Option.map_eq_some_iff] at he
  obtain ⟨⟨hs, hw, hclose⟩, s₁, hs₁, rfl⟩ := he
  obtain ⟨a, u, hu, rfl⟩ := System.runOn_eq_some hs₁
  have hc := h.started c hs
  obtain ⟨v, own, us, peers, hl, hk⟩ := h.list (some c)
  have hi : (s.sys.proc (some c)).userList[1]? = some own := by rw [hl]; rfl
  obtain ⟨hlen, k, rfl⟩ := wp_true_of_run hu (hatchTextProc_pushes hi hclose)
  refine ⟨textMsg own.name w, k, hc, ?_, rfl⟩
  rw [hk.name, if_pos hc]
  exact carriesText_textMsg (cfg.name c).noNul (cfg.name c).fits hw hlen

theorem TalkInv.typing (h : TalkInv cfg R s) (hR : PartOf R) {c : ι} {w : Bytes} {t : Talk ι}
    (he : s.execute cfg (.text c w) = some t) : TalkInv cfg R t := by
  obtain ⟨m, k, hc, hb, rfl⟩ := h.typed_of_execute he
  obtain ⟨sent, hsub, hsent, -⟩ := MsgQueue.pushAll_list (s.sys.proc (some c)).tempList [m]
  have hpipe : (s.sys.setProc (some c) ((s.sys.proc (some c)).queues k m)).pipe cfg =
      s.sys.pipe cfg := System.pipe_setProc_eq rfl rfl
  refine h.setProc (h.list (some c)) ?_ (h.origin (some c)) ?_ ?_ h.named ?_
  · exact fun d hd _ => Option.some.inj hd ▸ hc
  · intro x y b hb'
    rw [hpipe] at hb'
    exact h.authentic x y b hb'
  · intro d hd b hb'
    obtain rfl := Option.some.inj hd
    change b ∈ ((s.sys.proc (some c)).tempList.pushAll [m]).list at hb'
    rw [hsent] at hb'
    rcases List.mem_append.mp hb' with hb' | hb'
    · exact h.temp c b hb'
    · rw [List.mem_singleton.mp (hsub.subset hb')]
      exact ⟨hc, w, hb⟩
  · intro e d
    rw [Talk.onWay, hpipe]
    by_cases hec : e = c
    · subst hec
      have ht : (s.sys.setProc (some e) ((s.sys.proc (some e)).queues k m)).temp e =
          s.sys.temp e ++ sent := by
        simpa [System.setProc, System.temp, Process.queues] using hsent
      have hws : (words sent).Sublist [w] := by
        have hone := words_sublist hsub
        rwa [words_singleton hb.msgType, hb.text] at hone
      rw [ht, words_append, ← List.append_assoc]
      change R _ (Function.update s.typed e _ e)
      rw [Function.update_self]
      exact hR.sublist (hws.append_left _) (hR.push w (h.lines e d))
    · have hne : some e ≠ some c := fun hs => hec (Option.some.inj hs)
      have ht : (s.sys.setProc (some c) ((s.sys.proc (some c)).queues k m)).temp e =
          s.sys.temp e := by
        simp [System.setProc, System.temp, hne]
      change R _ (Function.update s.typed c _ e)
      rw [ht, Function.update_of_ne hec]
      exact h.lines e d

omit [DecidableEq ι] in
/-- A client prints nothing when it sends its own word. -/
theorem prints_own {s : Process} {b : Bytes} {own : UserInfo} (hi : s.userList[1]? = some own)
    (hb : msgUserName b = own.name) : s.prints b = [] := by
  unfold Process.prints
  split
  · rw [hi]
    split
    · rename_i o u ho hu
      obtain rfl := Option.some.inj ho
      rw [if_neg (fun hn => hn.1 hb)]
    · rfl
  · rfl

omit [DecidableEq ι] in
/-- Every peer gets the word, nobody else does. -/
theorem authentic_words {called : ι → Bool} {c : ι} {v own : UserInfo} {us : List UserInfo}
    {peers : List ι} {b w : Bytes} (hk : Knows cfg called c v own us peers)
    (hb : CarriesText b (cfg.bytes c) w) (y : Option ι) (x : Bytes)
    (hx : x ∈ waiting (cfg.socket (some c)) (cfg.socket y) (groupCopies b us)) :
    Authentic cfg called (some c) y x ∧ msgMsgType x = .text := by
  obtain ⟨m, hm, hd, rfl⟩ := mem_waiting.mp hx
  obtain ⟨o, ho, rfl⟩ := mem_groupCopies hb.toCarries hm
  obtain ⟨ps, hps, hsub⟩ := forall₂_sublist hk.entries (List.singleton_sublist.mpr ho)
  obtain ⟨e, rest, hoe, -, rfl⟩ := List.forall₂_cons_left_iff.mp hps
  have hep : e ∈ peers := hsub.subset (List.mem_cons_self ..)
  rw [msgFromAddr_readdress hb.toCarries, hoe.2] at hd
  obtain rfl : some e = y := cfg.socket_injective hd
  refine ⟨.word c e ?_ (hk.called e hep) w hb.readdress.recvMsg, hb.readdress.recvMsg.msgType⟩
  rintro rfl
  exact hk.others hep

/-- The first word of its own list goes to all peers of a client. -/
theorem TalkInv.sent_of_execute (h : TalkInv cfg R s) {c : ι} {t : Talk ι}
    (he : s.execute cfg (.handleTemp c) = some t) : ∃ b w q u,
      s.sys.temp c = b :: q.list ∧ s.sys.loginCalled c = true ∧
      CarriesText b (cfg.bytes c) w ∧ u.tempList = q ∧
      (s.sys.proc (some c)).Leaves u (s.sys.proc (some c)).userList
        (groupCopies b ((s.sys.proc (some c)).userList.drop 2))
        (s.sys.proc (some c)).runnerEnd ∧
      t = { s with sys := s.sys.setProc (some c) u } := by
  simp only [Talk.execute] at he
  split at he
  · rename_i b q hq
    obtain ⟨s₁, hs₁, rfl⟩ := Option.map_eq_some_iff.mp he
    obtain ⟨a, u, hu, rfl⟩ := System.runOn_eq_some hs₁
    have hbt : s.sys.temp c = b :: q.list := (MsgQueue.pop_eq_some hq).1
    obtain ⟨hc, w, hb⟩ := h.temp c b (by rw [hbt]; exact List.mem_cons_self ..)
    obtain ⟨v, own, us, peers, hl, hk⟩ := h.list (some c)
    have hi : (s.sys.proc (some c)).userList[1]? = some own := by rw [hl]; rfl
    have hown : msgUserName b = own.name := by rw [hb.name, hk.name, if_pos hc]
    have hset : (s.sys.setProc (some c) { s.sys.proc (some c) with tempList := q }).proc (some c) =
        { s.sys.proc (some c) with tempList := q } := by
      simp [System.setProc]
    rw [hset] at hu
    have hL := (wp_of_run hu _).mp
      (client_takes_own (s := { s.sys.proc (some c) with tempList := q }) hk hl hc hb)
    have hsys : (s.sys.setProc (some c) { s.sys.proc (some c) with tempList := q }).setProc
        (some c) u = s.sys.setProc (some c) u := by
      simp [System.setProc]
    have hshown : s.shows c b = s.shown := by
      rw [Talk.shows, prints_own hi hown, List.append_nil, Function.update_eq_self]
    refine ⟨b, w, q, u, hbt, hc, hb, tempList_of_run (q := some c) hu, ?_, by rw [hsys, hshown]⟩
    exact ⟨hL.userList, by rw [hl]; exact hL.sendList, hL.recvList, hL.runnerEnd⟩
  · cases he

theorem TalkInv.sending (h : TalkInv cfg R s) (hR : PartOf R) {c : ι} {t : Talk ι}
    (he : s.execute cfg (.handleTemp c) = some t) : TalkInv cfg R t := by
  obtain ⟨b, w, q, u, hbt, hc, hb, htemp, hL, rfl⟩ := h.sent_of_execute he
  obtain ⟨v, own, us, peers, hl, hk⟩ := h.list (some c)
  have hsend := hL.sendList
  rw [hl] at hsend
  change u.sendList = (s.sys.proc (some c)).sendList.pushAll (groupCopies b us) at hsend
  have hpipe (x y : Option ι) := System.pipe_sent_sublist cfg (s := s.sys) hsend x y
  have hpop : s.sys.popped cfg (some c) u.recvList.list = s.sys.pipe cfg :=
    System.popped_called hL.recvList
  rw [hpop] at hpipe
  refine h.setProc ?_ ?_ ?_ ?_ ?_ h.named ?_
  · rw [hL.userList]
    exact h.list (some c)
  · exact fun d hd _ => Option.some.inj hd ▸ hc
  · rw [hL.recvList]
    exact h.origin (some c)
  · intro x y b' hb'
    have hm := (hpipe x y).subset hb'
    rcases List.mem_append.mp hm with hm | hm
    · exact h.authentic x y b' hm
    · split_ifs at hm with hx
      · rw [hx]
        exact (authentic_words hk hb y b' hm).1
      · exact absurd hm List.not_mem_nil
  · intro d hd b' hb'
    obtain rfl := Option.some.inj hd
    rw [htemp] at hb'
    exact h.temp c b' (by rw [hbt]; exact List.mem_cons_of_mem _ hb')
  · intro e d
    have hsub := words_sublist (hpipe (some e) (some d))
    rw [Net.sending, words_append] at hsub
    change R (said cfg e (s.shown d) ++ words ((s.sys.setProc (some c) u).pipe cfg _ _) ++
      words ((s.sys.setProc (some c) u).temp e)) (s.typed e)
    by_cases hec : e = c
    · subst hec
      have ht : (s.sys.setProc (some e) u).temp e = q.list := by
        simp [System.setProc, System.temp, htemp]
      -- the word leaves the list and joins the pipe to `d`, if `d` is a peer
      have hone : (words (waiting (cfg.socket (some e)) (cfg.socket (some d))
          (groupCopies b us))).Sublist [w] := by
        have hw := waiting_group hb.toCarries hk.entries hk.nodup (cfg.endpoint e) d
        change (words (waiting (cfg.endpoint e) (cfg.endpoint d) _)).Sublist _
        rw [hw]
        split
        · rw [words_singleton hb.recvMsg.msgType, hb.recvMsg.text]
        · exact List.nil_sublist _
      rw [if_pos rfl] at hsub
      have hold := h.lines e d
      rw [Talk.onWay, hbt, words_cons hb.msgType, hb.text, List.append_cons] at hold
      rw [ht]
      refine hR.sublist (List.Sublist.append_right ?_ _) hold
      rw [List.append_assoc]
      exact (hsub.trans (hone.append_left _)).append_left _
    · have hne : some e ≠ some c := fun hs => hec (Option.some.inj hs)
      have ht : (s.sys.setProc (some c) u).temp e = s.sys.temp e := by
        simp [System.setProc, System.temp, hne]
      rw [if_neg hne, words_eq_nil (fun _ hx => absurd hx List.not_mem_nil),
        List.append_nil] at hsub
      rw [ht]
      exact hR.sublist ((hsub.append_left _).append_right _) (h.lines e d)

theorem TalkInv.step (hR : PartOf R) (hreg : cfg.Regular) {a : TalkAction ι} {t : Talk ι}
    (hG : (∀ {l l' m : List Bytes}, l.Perm l' → R l m → R l' m) ∨ Fifo s a)
    (h : TalkInv cfg R s) (he : s.execute cfg a = some t) : TalkInv cfg R t := by
  cases a with
  | text c w => exact h.typing hR he
  | handleTemp c => exact h.sending hR he
  | sys a =>
      obtain ⟨s', hs', rfl⟩ := Option.map_eq_some_iff.mp he
      cases a with
      | memory p junk =>
          obtain rfl := Option.some.inj hs'
          exact h.keep rfl rfl rfl rfl rfl
      | login c => exact h.login hR hs'
      | logout c => exact h.logout hR hs'
      | servicesEnd c =>
          simp only [System.execute, Option.ite_none_right_eq_some] at hs'
          obtain ⟨-, hs'⟩ := hs'
          obtain ⟨a, u, hu, rfl⟩ := System.runOn_eq_some hs'
          obtain rfl : u = { s.sys.proc (some c) with runnerEnd := true } := by
            cases hu
            rfl
          exact h.keep rfl rfl rfl rfl rfl
      | transmit p => exact h.transmit hs'
      | deliver q i => exact h.deliver hR hG hs'
      | handle q => exact h.handle hR hreg hs'
      | abandon q => exact h.abandon hR hs'
      | discard q i =>
          simp only [System.execute] at hs'
          split at hs'
          · rename_i d hd
            simp only [Option.ite_none_right_eq_some, Option.some.injEq] at hs'
            obtain ⟨-, rfl⟩ := hs'
            exact h.fewer hR hd
          · cases hs'
      | lose i =>
          simp only [System.execute, Option.ite_none_right_eq_some, Option.some.injEq] at hs'
          obtain ⟨hi, rfl⟩ := hs'
          exact h.fewer hR (List.getElem?_eq_getElem hi)

theorem talkInv_of_reaches {G : Talk ι → TalkAction ι → Prop} (hR : PartOf R) (hreg : cfg.Regular)
    (hG : ∀ {s a}, G s a → (∀ {l l' m : List Bytes}, l.Perm l' → R l m → R l' m) ∨ Fifo s a)
    (h : Reaches (talk cfg) G s) : TalkInv cfg R s :=
  h.invariant (fun _ hs => hs ▸ talkInv_start hR hreg)
    (fun _ _ _ hi hg he => hi.step hR hreg (hG hg) he)

/-- The greeting of `c` reaches `d`; then `c` types twice before its client sends. -/
def talksTwice (c d : ι) : List (TalkAction ι) :=
  [.sys (.transmit (some c)), .sys (.deliver (some d) 0), .sys (.handle (some d)),
    .text c [0x68, 0x69], .text c [0x62, 0x79, 0x65], .handleTemp c, .handleTemp c,
    .sys (.transmit (some c)), .sys (.transmit (some c))]

theorem pair_regular : pair.Regular where
  own _ := rfl
  legible c := by
    intro x hx
    by_cases hc : c = 0
    · obtain rfl : x = 0x61 := by simpa [Config.bytes, pair, hc, aliceName, eq_comm] using hx
      decide
    · obtain rfl : x = 0x62 := by simpa [Config.bytes, pair, hc, bobName, eq_comm] using hx
      decide

/-- Whatever the network does, a client shows only lines of others, and of every other client no
word more often than it was typed there. -/
theorem shown_of_typed (hreg : cfg.Regular) (h : Reachable (talk cfg) s) (d : ι) :
    (∀ x ∈ s.shown d, ∃ c, c ≠ d ∧ x.1 = cfg.bytes c) ∧
      ∀ c, (said cfg c (s.shown d)).Subperm (s.typed c) := by
  have hi := talkInv_of_reaches (R := List.Subperm) partOf_subperm hreg
    (fun _ => .inl (fun hp hs => hp.symm.subperm.trans hs)) h
  refine ⟨hi.named d, fun c => partOf_subperm.sublist ?_ (hi.lines c d)⟩
  rw [Talk.onWay, List.append_assoc]
  exact List.sublist_append_left ..

/-- The second word overtakes the first. -/
theorem shown_of_typed_overtaken : ∃ s, Reachable (talk pair) s ∧
    s.typed 0 = [[0x68, 0x69], [0x62, 0x79, 0x65]] ∧
    s.shown 1 = [(aliceName.bytes, [0x62, 0x79, 0x65]), (aliceName.bytes, [0x68, 0x69])] ∧
    ∀ c, (said pair c (s.shown 1)).Subperm (s.typed c) := by
  obtain ⟨s, hs, ht, hsh⟩ := Reaches.exists_of_run (G := fun _ _ => True)
    (Q := fun s => s.typed 0 = [[0x68, 0x69], [0x62, 0x79, 0x65]] ∧
      s.shown 1 = [(aliceName.bytes, [0x62, 0x79, 0x65]), (aliceName.bytes, [0x68, 0x69])])
    (.init (M := talk pair) rfl)
    (bothLogin.map .sys ++ talksTwice 0 1 ++
      [.sys (.deliver (some 1) 1), .sys (.deliver (some 1) 0), .sys (.handle (some 1)),
        .sys (.handle (some 1))])
    (by decide +kernel)
  exact ⟨s, hs, ht, hsh, (shown_of_typed pair_regular hs 1).2⟩

/-- If the network keeps the order of each sender and receiver, the lines of a client are shown in
the order in which they were typed. -/
theorem shown_in_order (hreg : cfg.Regular) (h : Reaches (talk cfg) Fifo s) (c d : ι) :
    (said cfg c (s.shown d)).Sublist (s.typed c) := by
  have hi := talkInv_of_reaches (R := List.Sublist) partOf_sublist hreg (fun hg => .inr hg) h
  refine List.Sublist.trans ?_ (hi.lines c d)
  rw [Talk.onWay, List.append_assoc]
  exact List.sublist_append_left ..

/-- The first word is lost, and the second is shown. -/
theorem shown_in_order_lost : ∃ s, Reaches (talk pair) Fifo s ∧
    s.typed 0 = [[0x68, 0x69], [0x62, 0x79, 0x65]] ∧
    s.shown 1 = [(aliceName.bytes, [0x62, 0x79, 0x65])] ∧
    (said pair 0 (s.shown 1)).Sublist (s.typed 0) := by
  obtain ⟨s, hs, ht, hsh⟩ := Reaches.exists_of_run (G := Fifo)
    (Q := fun s => s.typed 0 = [[0x68, 0x69], [0x62, 0x79, 0x65]] ∧
      s.shown 1 = [(aliceName.bytes, [0x62, 0x79, 0x65])])
    (.init (M := talk pair) rfl)
    (bothLogin.map .sys ++ talksTwice 0 1 ++
      [.sys (.lose 0), .sys (.deliver (some 1) 0), .sys (.handle (some 1))])
    (by decide +kernel)
  exact ⟨s, hs, ht, hsh, shown_in_order pair_regular hs 0 1⟩

end Hatch.Net
