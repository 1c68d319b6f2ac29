import Hatch.NetTalk

/-!
# What is shown has been typed

Every message on the way from one party to another is one that the sender may send: a client
sends its own requests, its own greetings and its own words, and the server speaks of clients
that have called it. The user list of a client holds every other client at most once, under its
own address, so a word is on its way to each of them at most once. What a client shows of
another, what is on the way to it and what the other has still to send are together a part of
what the other has typed; the part is in order if the network keeps the order.
-/

namespace Hatch.Net

open ByteLayout FaultProgram Prog TransitionSystem

variable {ι : Type}

/-- The clients know their own addresses, and no name begins with the code of a message type. -/
structure Config.Regular (cfg : Config ι) : Prop where
  own : ∀ c, (cfg.ownerAddr c).endpoint = cfg.endpoint c
  legible : ∀ c, Legible (cfg.bytes c)

/-- Messages that may be on the way, as they will be received; `called` says who has called the
server. Nobody sends to a client that has not. -/
inductive Authentic (cfg : Config ι) (called : ι → Bool) : Option ι → Option ι → Bytes → Prop
  | login {b : Bytes} (c : ι) (hc : called c = true) (h : Carries b .login (cfg.bytes c)) :
      Authentic cfg called (some c) none b
  | logout {b : Bytes} (c : ι) (hc : called c = true) (h : Carries b .logout (cfg.bytes c)) :
      Authentic cfg called (some c) none b
  | unread {b : Bytes} (c : ι) (h : Unread b) : Authentic cfg called (some c) none b
  | reply {b : Bytes} (d : ι) (hd : called d = true) (n : Bytes) (h : Carries b .login n) :
      Authentic cfg called none (some d) b
  | announced {b : Bytes} (c d : ι) (hc : called c = true) (hd : called d = true) (a : SockAddrIn)
      (h : CarriesAddr b .update (cfg.bytes c) a) (ha : a.endpoint = cfg.endpoint c) :
      Authentic cfg called none (some d) b
  | dismissed {b : Bytes} (c d : ι) (hc : called c = true) (hd : called d = true)
      (h : Carries b .logout (cfg.bytes c)) : Authentic cfg called none (some d) b
  | greeting {b : Bytes} (c d : ι) (hc : called c = true) (hd : called d = true) (a : SockAddrIn)
      (h : CarriesAddr b .backSyn (cfg.bytes c) a) (ha : a.endpoint = cfg.endpoint c) :
      Authentic cfg called (some c) (some d) b
  | word {b : Bytes} (c d : ι) (hcd : c ≠ d) (hd : called d = true) (w : Bytes)
      (h : CarriesText b (cfg.bytes c) w) : Authentic cfg called (some c) (some d) b

/-- The user list of client `c`: the server, the client itself and its peers. -/
structure Knows (cfg : Config ι) (called : ι → Bool) (c : ι) (u own : UserInfo)
    (us : List UserInfo) (peers : List ι) : Prop where
  server : u.name = serverName ∧ (u.addr, u.port) = serverEndpoint
  name : own.name = if called c then cfg.bytes c else clientInitName
  addr : (own.addr, own.port) = cfg.endpoint c
  status : ∃ st, own.status = some (statusOf st)
  entries : List.Forall₂ (EntryOf cfg) us peers
  nodup : peers.Nodup
  others : c ∉ peers
  called : ∀ e ∈ peers, called e = true

def ListOf (cfg : Config ι) (called : ι → Bool) : Option ι → List UserInfo → Prop
  | none, l => ∃ u us, l = u :: us ∧ u.name = serverName ∧
      ∀ v ∈ us, ∃ e, called e = true ∧ EntryOf cfg v e
  | some c, l => ∃ u own us peers, l = u :: own :: us ∧ Knows cfg called c u own us peers

section Messages

variable {cfg : Config ι} {called called' : ι → Bool} {p q : Option ι} {b : Bytes} {c d e : ι}

theorem Authentic.mono (h : Authentic cfg called p q b)
    (hm : ∀ c, called c = true → called' c = true) :
    Authentic cfg called' p q b := by
  cases h with
  | login c hc h => exact .login c (hm c hc) h
  | logout c hc h => exact .logout c (hm c hc) h
  | unread c h => exact .unread c h
  | reply d hd n h => exact .reply d (hm d hd) n h
  | announced c d hc hd a h ha => exact .announced c d (hm c hc) (hm d hd) a h ha
  | dismissed c d hc hd h => exact .dismissed c d (hm c hc) (hm d hd) h
  | greeting c d hc hd a h ha => exact .greeting c d (hm c hc) (hm d hd) a h ha
  | word c d hcd hd w h => exact .word c d hcd (hm d hd) w h

theorem Authentic.receiver_called (h : Authentic cfg called p (some d) b) : called d = true := by
  cases h <;> assumption

/-- A Text message is a word of its sender. -/
theorem Authentic.text (h : Authentic cfg called p q b) (ht : msgMsgType b = .text) :
    ∃ c d w, p = some c ∧ q = some d ∧ c ≠ d ∧ CarriesText b (cfg.bytes c) w := by
  cases h with
  | word c d hcd hd w h => exact ⟨c, d, w, rfl, rfl, hcd, h⟩
  | login c hc h | logout c hc h | reply d hd n h | dismissed c d hc hd h =>
      rw [h.msgType] at ht
      cases ht
  | announced c d hc hd a h ha | greeting c d hc hd a h ha =>
      rw [h.msgType] at ht
      cases ht
  | unread c h =>
      obtain ⟨k, hk⟩ := h.msgType
      rw [hk] at ht
      cases ht

/-- No message is empty or too long to be received. -/
theorem Authentic.length (h : Authentic cfg called p q b) :
    offMsgType + 4 ≤ b.length ∧ b.length ≤ msgPacketMaxLength := by
  have hlong {t : MsgType} {n : Bytes} (hc : Carries b t n) :
      offMsgType + 4 ≤ b.length ∧ b.length ≤ msgPacketMaxLength :=
    ⟨le_trans (by decide) hc.long, hc.short⟩
  cases h with
  | login c hc h | logout c hc h | reply d hd n h | dismissed c d hc hd h => exact hlong h
  | announced c d hc hd a h ha | greeting c d hc hd a h ha => exact hlong h.toCarries
  | word c d hcd hd w h => exact hlong h.toCarries
  | unread c h => exact ⟨h.long, h.short⟩

end Messages

section Lists

variable {cfg : Config ι} {called called' : ι → Bool} {c e : ι} {u own v : UserInfo}
  {us l : List UserInfo} {peers : List ι} {p : Option ι}

theorem Knows.mem_names (h : Knows cfg called c u own us peers) (hc : called c = true) :
    cfg.bytes e ∈ names (u :: own :: us) ↔ e = c ∨ e ∈ peers := by
  change cfg.bytes e ∈ u.name :: own.name :: names us ↔ _
  rw [h.server.1, h.name, if_pos hc, names_of_entries h.entries, List.mem_cons, List.mem_cons,
    List.mem_map_of_injective cfg.bytes_injective, cfg.bytes_injective.eq_iff,
    or_iff_right (cfg.bytes_ne_server e).symm]

theorem Knows.setStatus (h : Knows cfg called c u own us peers) (st : Roster.Status) :
    Knows cfg called c u { own with status := some (statusOf st) } us peers :=
  ⟨h.server, h.name, h.addr, ⟨st, rfl⟩, h.entries, h.nodup, h.others, h.called⟩

theorem Knows.append (h : Knows cfg called c u own us peers) (hv : EntryOf cfg v e)
    (hc : called c = true) (he : called e = true) (hn : cfg.bytes e ∉ names (u :: own :: us)) :
    Knows cfg called c u own (us ++ [v]) (peers ++ [e]) := by
  rw [h.mem_names hc] at hn
  refine ⟨h.server, h.name, h.addr, h.status, List.rel_append h.entries (.cons hv .nil), ?_, ?_, ?_⟩
  · exact List.nodup_append.mpr ⟨h.nodup, List.nodup_singleton e, by
      intro x hx y hy hxy
      rw [List.mem_singleton.mp hy] at hxy
      exact hn (.inr (hxy ▸ hx))⟩
  · intro hm
    rcases List.mem_append.mp hm with hm | hm
    · exact h.others hm
    · exact hn (.inl (List.mem_singleton.mp hm).symm)
  · intro x hx
    rcases List.mem_append.mp hx with hx | hx
    · exact h.called x hx
    · exact List.mem_singleton.mp hx ▸ he

theorem Knows.erase [DecidableEq ι] (h : Knows cfg called c u own us peers)
    (he : own.name ≠ cfg.bytes e) : eraseUser (cfg.bytes e) (u :: own :: us) =
      u :: own :: eraseUser (cfg.bytes e) us ∧
      Knows cfg called c u own (eraseUser (cfg.bytes e) us) (peers.erase e) := by
  constructor
  · rw [eraseUser_cons_of_ne (h.server.1 ▸ cfg.bytes_ne_server e), eraseUser_cons_of_ne he]
  · exact ⟨h.server, h.name, h.addr, h.status, entries_erase h.entries e, h.nodup.erase e,
      fun hm => h.others (List.mem_of_mem_erase hm),
      fun x hx => h.called x (List.mem_of_mem_erase hx)⟩

theorem userIndex_cons_of_ne {n : Bytes} (h : u.name ≠ n) :
    userIndex n (u :: l) = userIndex n l + 1 := by
  simp [userIndex, List.findIdx_cons, h]

theorem Knows.userIndex_peer (h : Knows cfg called c u own us peers)
    (he : own.name ≠ cfg.bytes e) :
    userIndex (cfg.bytes e) (u :: own :: us) = userIndex (cfg.bytes e) us + 2 := by
  rw [userIndex_cons_of_ne (h.server.1 ▸ cfg.bytes_ne_server e), userIndex_cons_of_ne he]

theorem entries_setStatus (h : List.Forall₂ (EntryOf cfg) us peers) {i : ℕ}
    (hi : us[i]? = some v) (st : Option UserStatus) :
    List.Forall₂ (EntryOf cfg) (us.set i { v with status := st }) peers := by
  induction h generalizing i with
  | nil => exact .nil
  | cons hu hus ih =>
      cases i with
      | zero =>
          obtain rfl : _ = v := Option.some.inj hi
          exact .cons hu hus
      | succ i => exact .cons hu (ih hi)

theorem names_setStatus {i : ℕ} (hi : l[i]? = some v) (st : Option UserStatus) :
    names (l.set i { v with status := st }) = names l := by
  obtain ⟨h, rfl⟩ := List.getElem?_eq_some_iff.mp hi
  rw [names, names, List.map_set]
  exact List.ext_getElem (by simp) (fun j _ _ => by
    rw [List.getElem_set]
    split
    · simp_all
    · rfl)

theorem ListOf.mono (h : ListOf cfg called p l) (hm : ∀ c, called c = true → called' c = true)
    (hp : ∀ c, p = some c → called' c = called c) : ListOf cfg called' p l := by
  cases p with
  | none =>
      obtain ⟨u, us, hl, hu, hus⟩ := h
      refine ⟨u, us, hl, hu, ?_⟩
      intro v hv
      obtain ⟨e, he, hve⟩ := hus v hv
      exact ⟨e, hm e he, hve⟩
  | some c =>
      obtain ⟨u, own, us, peers, hl, hk⟩ := h
      refine ⟨u, own, us, peers, hl, hk.server, ?_, hk.addr, hk.status, hk.entries, hk.nodup,
        hk.others, fun e he => hm e (hk.called e he)⟩
      rw [hp c rfl]
      exact hk.name

end Lists

/-! What the handlers do with an authentic message. -/

theorem msgFromAddr_updateUp {junk : ℕ → UInt8} {n : UserName} {a : SockAddrIn}
    {server : Endpoint} :
    (msgFromAddr (Built.updateUp junk n a server).bytes).endpoint = server := by
  have hc : (contextUpdate junk n.bytes a).length = 56 := length_contextUpdate n.fits
  have hf : field (Built.updateUp junk n a server).bytes offFromAddr sizeofSockAddrIn =
      (localSockAddr junk server).encode := by
    rw [Built.bytes, updateMsg]
    apply field_assign
    · simp [updateFields, hc, updateUpOffset]
    · simp [updateFields, Apart, updateUpOffset]
    · simp [updateFields]
    · simp
  rw [msgFromAddr, hf, SockAddrIn.decode_encode]
  rfl

/-- An answer to `b` is no word, and a Logout only if `b` is one. -/
def Answers (b x : Bytes) : Prop :=
  msgMsgType x ≠ .text ∧ (msgMsgType x = .logout → msgMsgType b = .logout)

/-- What party `p` has done with message `b`: it has sent authentic answers and received nothing. -/
structure Yields (cfg : Config ι) (called : ι → Bool) (p : Option ι) (b : Bytes) (s t : Process)
    (ms : List Bytes) : Prop where
  recvList : t.recvList = s.recvList
  sendList : t.sendList = s.sendList.pushAll ms
  authentic : ∀ y, ∀ x ∈ waiting (cfg.socket p) (cfg.socket y) ms,
    Authentic cfg called p y x ∧ Answers b x
  runs : msgMsgType b ≠ .logout → t.runnerEnd = s.runnerEnd

def Lists (cfg : Config ι) (l : List UserInfo) (e : ι) : Prop := cfg.bytes e ∈ names (l.drop 2)

/-- What client `c` has done with message `b` of party `p`: unless it is a Logout, nobody leaves
the list, and a new peer is the sender of a greeting or is greeted. -/
structure Meets (cfg : Config ι) (p : Option ι) (c : ι) (b : Bytes) (s t : Process)
    (ms : List Bytes) : Prop where
  active : (∀ u ∈ s.userList.drop 2, u.Active) → ∀ u ∈ t.userList.drop 2, u.Active
  lists : msgMsgType b ≠ .logout → p ≠ some c → ∀ e, Lists cfg t.userList e ↔
    Lists cfg s.userList e ∨ (p = some e ∧ msgMsgType b = .backSyn) ∨
      ∃ x ∈ waiting (cfg.endpoint c) (cfg.endpoint e) ms, msgMsgType x = .backSyn

section Handlers

variable {cfg : Config ι} {called : ι → Bool} {p : Option ι} {s t : Process} {b : Bytes} {c e : ι}
  {u own : UserInfo} {us l : List UserInfo} {peers : List ι} {ms : List Bytes} {r : Bool}

theorem Process.Leaves.yields (h : s.Leaves t l ms r)
    (hm : ∀ y, ∀ x ∈ waiting (cfg.socket p) (cfg.socket y) ms,
      Authentic cfg called p y x ∧ Answers b x) (hr : msgMsgType b ≠ .logout → r = s.runnerEnd) :
    Yields cfg called p b s t ms :=
  ⟨h.recvList, h.sendList, hm, fun hb => h.runnerEnd.trans (hr hb)⟩

theorem Process.Leaves.silent (h : s.Leaves t l [] r)
    (hr : msgMsgType b ≠ .logout → r = s.runnerEnd) : Yields cfg called p b s t [] :=
  h.yields (fun _ _ hx => absurd hx List.not_mem_nil) hr

/-- The peers are the same, and nobody is greeted. -/
theorem meets_of_names (hn : names (t.userList.drop 2) = names (s.userList.drop 2))
    (ha : (∀ u ∈ s.userList.drop 2, u.Active) → ∀ u ∈ t.userList.drop 2, u.Active)
    (hb : msgMsgType b = .backSyn → ∀ e, p = some e → e ≠ c → Lists cfg s.userList e)
    (hm : ∀ e, ∀ x ∈ waiting (cfg.endpoint c) (cfg.endpoint e) ms, msgMsgType x ≠ .backSyn) :
    Meets cfg p c b s t ms := by
  refine ⟨ha, fun _ hp e => ?_⟩
  rw [Lists, Lists, hn]
  refine ⟨.inl, ?_⟩
  rintro (he | ⟨he, hbs⟩ | ⟨x, hx, hxs⟩)
  · exact he
  · exact hb hbs e he (fun hec => hp (hec ▸ he))
  · exact absurd hxs (hm _ x hx)

theorem meets_of_userList (hn : t.userList = s.userList) (hb : msgMsgType b ≠ .backSyn) :
    Meets cfg p c b s t [] :=
  meets_of_names (by rw [hn]) (by rw [hn]; exact id) (fun h => absurd h hb)
    (fun _ _ hx => absurd hx List.not_mem_nil)

/-- The client changes its own status only. -/
theorem meets_of_own {o : UserInfo} (hl : s.userList = u :: own :: us)
    (hn : t.userList = u :: o :: us)
    (hb : msgMsgType b ≠ .backSyn) : Meets cfg p c b s t [] := by
  refine meets_of_names ?_ ?_ (fun h => absurd h hb) (fun _ _ hx => absurd hx List.not_mem_nil)
  · rw [hn, hl]
    rfl
  · rw [hn, hl]
    exact id

/-- The client takes a peer for online, and changes nothing else. -/
theorem meets_of_online {i : ℕ} {v : UserInfo} (hl : s.userList = u :: own :: us)
    (hv : us[i]? = some v)
    (hn : t.userList = u :: own :: us.set i { v with status := some .online })
    (hb : msgMsgType b ≠ .backSyn) : Meets cfg p c b s t [] := by
  refine meets_of_names ?_ ?_ (fun h => absurd h hb) (fun _ _ hx => absurd hx List.not_mem_nil)
  · rw [hn, hl]
    exact names_setStatus hv _
  · rw [hn, hl]
    intro hact o ho
    rcases List.mem_or_eq_of_mem_set ho with ho | ho
    · exact hact o ho
    · exact .inl (by rw [ho])

/-- A new peer at the end of the list. -/
theorem meets_of_append {v : UserInfo} (hl : s.userList = u :: own :: us)
    (hn : t.userList = s.userList ++ [v]) (hv : v.name = cfg.bytes e) (hact : v.Active)
    (hnew : ∀ d, (p = some d ∧ msgMsgType b = .backSyn ∨
      ∃ x ∈ waiting (cfg.endpoint c) (cfg.endpoint d) ms, msgMsgType x = .backSyn) ↔ d = e) :
    Meets cfg p c b s t ms := by
  have hdrop : t.userList.drop 2 = s.userList.drop 2 ++ [v] := by
    rw [hn, hl]
    rfl
  refine ⟨?_, fun _ _ d => ?_⟩
  · intro hs w hw
    rw [hdrop] at hw
    rcases List.mem_append.mp hw with hw | hw
    · exact hs w hw
    · rw [List.mem_singleton.mp hw]
      exact hact
  · rw [Lists, hdrop, names, List.map_append, List.mem_append, hnew d, ← cfg.bytes_injective.eq_iff]
    exact or_congr Iff.rfl (by simp [hv])

theorem mem_waiting {e e' : Endpoint} {x : Bytes} :
    x ∈ waiting e e' ms ↔ ∃ m ∈ ms, (msgFromAddr m).endpoint = e' ∧
      recvMsg (sockAddr e) (wireOf m) = x := by
  simp [waiting, and_assoc]

theorem mem_groupCopies {n : Bytes} {ty : MsgType} (hc : Carries b ty n) {m : Bytes}
    (hm : m ∈ groupCopies b us) : ∃ v ∈ us, m = readdress b v := by
  rw [groupCopies_of_carries hc] at hm
  obtain ⟨v, hv, rfl⟩ := List.mem_map.mp hm
  exact ⟨v, hv, rfl⟩

section Client

variable (hk : Knows cfg called c u own us peers) (hl : s.userList = u :: own :: us)
  (hc : called c = true)
include hk hl

theorem client_takes_reply {n : Bytes} (hb : Carries b .login n) :
    wp (hatchMsgProc clientProtocol b) False (fun _ t => ∃ ms,
      ListOf cfg called (some c) t.userList ∧ Yields cfg called (some c) b s t ms ∧
      Meets cfg p c b s t ms) s := by
  have hi : s.userList[1]? = some own := by rw [hl]; rfl
  refine wp_mono ?_ (client_login hi hb)
  intro _ t ht
  have hty : msgMsgType b ≠ .backSyn := by rw [hb.msgType]; simp
  have hlist := ht.userList
  rw [hl] at hlist
  refine ⟨[], ?_, ht.silent (fun _ => rfl), meets_of_own hl hlist hty⟩
  rw [hlist]
  split_ifs
  · exact ⟨u, _, us, peers, rfl, hk.setStatus .login⟩
  · exact ⟨u, _, us, peers, rfl, hk.setStatus .null⟩

include hc

omit hl in
/-- The greeting that answers the announcement of `e`. -/
theorem authentic_backSyn {a : SockAddrIn} (he : called e = true)
    (hb : CarriesAddr b .update (cfg.bytes e) a) (ha : a.endpoint = cfg.endpoint e)
    (y : Option ι) (x : Bytes) (hx : x ∈ waiting (cfg.socket (some c)) (cfg.socket y)
      [backSynMsg b a (own.addr, own.port) own.name]) :
    Authentic cfg called (some c) y x ∧ msgMsgType x = .backSyn ∧ y = some e := by
  have hn : own.name = cfg.bytes c := by rw [hk.name, if_pos hc]
  have hlen : own.name.length < usernameMaxLength := hn ▸ (cfg.name c).fits
  have hs : CarriesAddr (recvMsg (sockAddr (cfg.endpoint c))
      (wireOf (backSynMsg b a (own.addr, own.port) own.name))) .backSyn (cfg.bytes c)
      { a with addr := own.addr, port := own.port } := by
    rw [← hn]
    exact (hb.backSyn hlen (hn ▸ (cfg.name c).noNul)).recvMsg
  obtain ⟨m, hm, hd, rfl⟩ := mem_waiting.mp hx
  obtain rfl := List.mem_singleton.mp hm
  rw [msgFromAddr_backSynMsg hb hlen, ha] at hd
  obtain rfl : some e = y := cfg.socket_injective hd
  exact ⟨.greeting c e hc he _ hs hk.addr, hs.msgType, rfl⟩

theorem client_takes_announced {a : SockAddrIn} (he : called e = true)
    (hb : CarriesAddr b .update (cfg.bytes e) a) (ha : a.endpoint = cfg.endpoint e) :
    wp (hatchMsgProc clientProtocol b) False (fun _ t => ∃ ms,
      ListOf cfg called (some c) t.userList ∧ Yields cfg called (some c) b s t ms ∧
      Meets cfg none c b s t ms) s := by
  have hi : s.userList[1]? = some own := by rw [hl]; rfl
  have hkeep : ListOf cfg called (some c) s.userList := ⟨u, own, us, peers, hl, hk⟩
  have hty : msgMsgType b ≠ .backSyn := by rw [hb.msgType]; simp
  obtain ⟨st, hst⟩ := hk.status
  cases st with
  | login =>
      refine wp_mono ?_ (client_update_login hi hst hb.toCarries)
      intro _ t ht
      have hlist := ht.userList
      rw [hl] at hlist
      refine ⟨[], ?_, ht.silent (fun _ => rfl), meets_of_own hl hlist hty⟩
      rw [hlist]
      split_ifs
      · exact ⟨u, _, us, peers, rfl, hk.setStatus .online⟩
      · exact ⟨u, _, us, peers, rfl, hk.setStatus .null⟩
  | null =>
      refine wp_mono ?_ (client_update_null hi hst hb.toCarries)
      intro _ t ht
      exact ⟨[], ht.userList ▸ hkeep, ht.silent (fun _ => rfl), meets_of_userList ht.userList hty⟩
  | online =>
      have hlen : own.name.length < usernameMaxLength := by
        rw [hk.name, if_pos hc]
        exact (cfg.name c).fits
      refine wp_mono ?_ (client_update_online hi hst hlen hb (cfg.name_ordinary e).2.1
        (cfg.name e).fits)
      rintro _ t (⟨-, ht⟩ | ⟨hn, ht⟩)
      · exact ⟨[], ht.userList ▸ hkeep, ht.silent (fun _ => rfl),
          meets_of_userList ht.userList hty⟩
      · have hgreet := authentic_backSyn hk hc he hb ha
        refine ⟨_, ?_, ht.yields ?_ (fun _ => rfl),
          meets_of_append hl ht.userList hb.name (.inl rfl) ?_⟩
        · rw [ht.userList, hl]
          rw [hl] at hn
          have hv : EntryOf cfg (announcedUser b) e := by
            refine ⟨hb.name, ?_⟩
            rw [← ha, ← hb.addr]
            rfl
          exact ⟨u, own, us ++ [announcedUser b], peers ++ [e], rfl, hk.append hv hc he hn⟩
        · intro y x hx
          obtain ⟨hs, hx, -⟩ := hgreet y x hx
          exact ⟨hs, by simp [Answers, hx]⟩
        · intro d
          constructor
          · rintro (⟨hd, -⟩ | ⟨x, hx, -⟩)
            · cases hd
            · exact Option.some.inj (hgreet (some d) x hx).2.2
          · rintro rfl
            refine .inr ⟨_, mem_waiting.mpr ⟨_, List.mem_singleton_self _, ?_, rfl⟩, ?_⟩
            · rw [msgFromAddr_backSynMsg hb hlen, ha]
            · refine (hgreet (some d) _ ?_).2.1
              refine mem_waiting.mpr ⟨_, List.mem_singleton_self _, ?_, rfl⟩
              rw [msgFromAddr_backSynMsg hb hlen, ha]
              rfl

theorem client_takes_greeting {a : SockAddrIn} (he : called e = true)
    (hb : CarriesAddr b .backSyn (cfg.bytes e) a) (ha : a.endpoint = cfg.endpoint e) :
    wp (hatchMsgProc clientProtocol b) False (fun _ t => ∃ ms,
      ListOf cfg called (some c) t.userList ∧ Yields cfg called (some c) b s t ms ∧
      Meets cfg (some e) c b s t ms) s := by
  refine wp_mono ?_ (client_backSyn hb (cfg.name e).fits)
  rintro _ t (⟨hn, ht⟩ | ⟨hn, ht⟩)
  · refine ⟨[], ht.userList ▸ ⟨u, own, us, peers, hl, hk⟩, ht.silent (fun _ => rfl),
      meets_of_names (by rw [ht.userList]) (by rw [ht.userList]; exact id) ?_
        (fun _ _ hx => absurd hx List.not_mem_nil)⟩
    intro _ d hd hdc
    obtain rfl := Option.some.inj hd
    rw [hl, hk.mem_names hc, or_iff_right hdc] at hn
    rw [Lists, hl]
    change cfg.bytes e ∈ names us
    rwa [names_of_entries hk.entries, List.mem_map_of_injective cfg.bytes_injective]
  · refine ⟨[], ?_, ht.silent (fun _ => rfl),
      meets_of_append hl ht.userList hb.name (.inl rfl) ?_⟩
    · rw [ht.userList, hl]
      rw [hl] at hn
      have hv : EntryOf cfg (announcedUser b) e := by
        refine ⟨hb.name, ?_⟩
        rw [← ha, ← hb.addr]
        rfl
      exact ⟨u, own, us ++ [announcedUser b], peers ++ [e], rfl, hk.append hv hc he hn⟩
    · intro d
      simp [waiting, hb.msgType, eq_comm]

omit hc in
theorem client_takes_dismissed [DecidableEq ι] (hb : Carries b .logout (cfg.bytes e)) :
    wp (hatchMsgProc clientProtocol b) False (fun _ t => ∃ ms,
      ListOf cfg called (some c) t.userList ∧ Yields cfg called (some c) b s t ms ∧
      Meets cfg p c b s t ms) s := by
  have hi : s.userList[1]? = some own := by rw [hl]; rfl
  have hout {P : Prop} (hne : msgMsgType b ≠ .logout) : P := absurd hb.msgType hne
  have hty : msgMsgType b ≠ .backSyn := by rw [hb.msgType]; simp
  refine wp_mono ?_ (client_logout hi hb)
  rintro _ t (⟨-, ht⟩ | ⟨-, ht⟩ | ⟨hn, ht⟩)
  · exact ⟨[], ht.userList ▸ ⟨u, own, us, peers, hl, hk⟩, ht.silent hout,
      meets_of_userList ht.userList hty⟩
  · have hlist := ht.userList
    rw [hl] at hlist
    refine ⟨[], ?_, ht.silent hout, meets_of_own hl hlist hty⟩
    rw [hlist]
    exact ⟨u, _, us, peers, rfl, hk.setStatus .null⟩
  · have hlist := ht.userList
    rw [hl, (hk.erase hn).1] at hlist
    refine ⟨[], ?_, ht.silent hout, ?_, hout⟩
    · rw [hlist]
      exact ⟨u, own, _, _, rfl, (hk.erase hn).2⟩
    · rw [hlist, hl]
      exact fun ha v hv => ha v (List.mem_of_mem_eraseIdx hv)

omit hl hc in
/-- The Update request about an unknown sender. -/
theorem authentic_updateRequest (hr : cfg.Regular) (hb : msgUserName b = cfg.bytes e)
    (y : Option ι) (x : Bytes) (hx : x ∈ waiting (cfg.socket (some c)) (cfg.socket y)
      [Client.updateRequest (s.received b) u]) :
    Authentic cfg called (some c) y x ∧ ∃ k, msgMsgType x = .other k := by
  have hm : Client.updateRequest (s.received b) u =
      (Built.updateUp s.junk (cfg.name e) (msgFromAddr b) (u.addr, u.port)).bytes := by
    change updateMsg _ _ (contextUpdate s.junk (msgUserName b) _) = _
    rw [hb]
    rfl
  obtain ⟨m, hmem, hd, rfl⟩ := mem_waiting.mp hx
  obtain rfl := List.mem_singleton.mp hmem
  rw [hm] at hd ⊢
  have hu : Unread (recvMsg (sockAddr (cfg.socket (some c)))
      (wireOf (Built.updateUp s.junk (cfg.name e) (msgFromAddr b) (u.addr, u.port)).bytes)) :=
    unread_updateUp (hr.legible e)
  rw [msgFromAddr_updateUp] at hd
  obtain rfl : none = y := cfg.socket_injective (hk.server.2.symm.trans hd)
  exact ⟨.unread c hu, hu.msgType⟩

/-- A word of somebody else is shown or gives rise to an Update request. -/
theorem client_takes_word (hr : cfg.Regular) (hec : e ≠ c) {w : Bytes}
    (hb : CarriesText b (cfg.bytes e) w) :
    wp (hatchMsgProc clientProtocol b) False (fun _ t => ∃ ms,
      ListOf cfg called (some c) t.userList ∧ Yields cfg called (some c) b s t ms ∧
      Meets cfg p c b s t ms) s := by
  have hl' : (s.received b).userList = u :: own :: us := hl
  have hi : (s.received b).userList[1]? = some own := by rw [hl']; rfl
  have hn : own.name = cfg.bytes c := by rw [hk.name, if_pos hc]
  have hne : cfg.bytes e ≠ cfg.bytes c := fun h => hec (cfg.bytes_injective h)
  have hkeep : ListOf cfg called (some c) (s.received b).userList := ⟨u, own, us, peers, hl', hk⟩
  have hname : msgUserName (s.received b).msg = cfg.bytes e := hb.name
  have hread : Readable (s.received b).msg := hb.readable
  have hin : (0 : UInt8) ∈ (s.received b).msg.drop offMsgText := hb.inside
  have hty : msgMsgType b ≠ .backSyn := by rw [hb.msgType]; simp
  have hnone (y : Option ι) (x : Bytes)
      (hx : x ∈ waiting (cfg.socket (some c)) (cfg.socket y) []) :
      Authentic cfg called (some c) y x ∧ Answers b x := absurd hx List.not_mem_nil
  rw [wp_hatchMsgProc_carries hb.toCarries]
  change wp (Client.hatchMsgText .received) _ _ _
  rw [Client.wp_hatchMsgText rfl hi, if_pos (hread.comparable _), hname, hn, if_neg hne]
  by_cases hm : cfg.bytes e ∈ names (s.received b).userList
  · rw [if_pos hm]
    have hu : userIndex (cfg.bytes e) (s.received b).userList = userIndex (cfg.bytes e) us + 2 :=
      hl' ▸ hk.userIndex_peer (hn ▸ hne.symm)
    cases hv : (s.received b).userList[userIndex (cfg.bytes e) (s.received b).userList]? with
    | none =>
        have hlt := userIndex_lt_iff.mpr hm
        rw [List.getElem?_eq_getElem hlt] at hv
        cases hv
    | some v =>
        have hv' : us[userIndex (cfg.bytes e) us]? = some v := by
          rw [hu, hl'] at hv
          exact hv
        simp only [if_pos hin]
        split_ifs with ha hh
        · have hset : ((s.received b).userList.set (userIndex (cfg.bytes e)
              (s.received b).userList) { v with status := some .online }) = u :: own ::
                us.set (userIndex (cfg.bytes e) us) { v with status := some .online } := by
            rw [hu, hl']
            rfl
          refine ⟨[], ?_, ⟨rfl, rfl, hnone, fun _ => rfl⟩, meets_of_online hl hv' hset hty⟩
          rw [hset]
          exact ⟨u, own, _, peers, rfl,
            { hk with entries := entries_setStatus hk.entries hv' _ }⟩
        · exact ⟨[], hkeep, ⟨rfl, rfl, hnone, fun _ => rfl⟩, meets_of_userList rfl hty⟩
        · exact ⟨[], hkeep, ⟨rfl, rfl, hnone, fun _ => rfl⟩, meets_of_userList rfl hty⟩
  · rw [if_neg hm, Client.wp_hatchMsgUpdateUp rfl,
      if_pos ⟨hread, hname.symm ▸ (cfg.name e).fits⟩]
    have hs : (s.received b).userList[userIndex serverName (s.received b).userList]? = some u := by
      rw [hl']
      simp [userIndex, List.findIdx_cons, hk.server.1]
    rw [hs]
    have hask := authentic_updateRequest (s := s) (c := c) hk hr hb.name
    refine ⟨[Client.updateRequest (s.received b) u], hkeep, ⟨rfl, rfl, ?_, fun _ => rfl⟩,
      meets_of_names rfl id (fun h => absurd h hty) ?_⟩
    · intro y x hx
      obtain ⟨hs, k, hx⟩ := hask y x hx
      exact ⟨hs, by simp [Answers, hx]⟩
    · intro d x hx
      obtain ⟨-, k, hx⟩ := hask (some d) x hx
      simp [hx]

/-- A word of its own goes to all peers. -/
theorem client_takes_own {w : Bytes} (hb : CarriesText b (cfg.bytes c) w) :
    wp (hatchMsgProc clientProtocol b) False (fun _ t =>
      s.Leaves t s.userList (groupCopies b us) s.runnerEnd) s := by
  have hl' : (s.received b).userList = u :: own :: us := hl
  have hi : (s.received b).userList[1]? = some own := by rw [hl']; rfl
  have hn : own.name = cfg.bytes c := by rw [hk.name, if_pos hc]
  have hm : cfg.bytes c ∈ names (s.received b).userList := by
    rw [hl']
    exact (hk.mem_names hc).mpr (.inl rfl)
  have hname : msgUserName (s.received b).msg = cfg.bytes c := hb.name
  have hread : Readable (s.received b).msg := hb.readable
  have hg : Groupable (s.received b).msg := hb.groupable
  rw [wp_hatchMsgProc_carries hb.toCarries]
  change wp (Client.hatchMsgText .received) _ _ _
  rw [Client.wp_hatchMsgText rfl hi, if_pos (hread.comparable _), hname, if_pos hm,
    if_pos hn.symm, if_pos (.inr hg)]
  refine ⟨rfl, ?_, rfl, rfl⟩
  rw [hl']
  rfl

end Client

section Server

variable (hl : ListOf cfg called none s.userList) (he : called e = true)
  (hs : (msgFromAddr b).endpoint = cfg.endpoint e)

/-- A message about `e` to everybody on the list is authentic. -/
theorem authentic_group {n : Bytes} {ty : MsgType} (hb : Carries b ty n)
    (hus : ∀ v ∈ us, ∃ d, called d = true ∧ EntryOf cfg v d)
    (hsound : ∀ d, called d = true →
      Authentic cfg called none (some d) (recvMsg (sockAddr serverEndpoint) (wireOf b)))
    (y : Option ι) (x : Bytes)
    (hx : x ∈ waiting (cfg.socket none) (cfg.socket y) (groupCopies b us)) :
    Authentic cfg called none y x ∧ msgMsgType x = ty := by
  obtain ⟨m, hm, hd, rfl⟩ := mem_waiting.mp hx
  obtain ⟨v, hv, rfl⟩ := mem_groupCopies hb hm
  obtain ⟨d, hdc, hve⟩ := hus v hv
  rw [msgFromAddr_readdress hb, hve.2] at hd
  obtain rfl : some d = y := cfg.socket_injective hd
  rw [wireOf_readdress hb]
  exact ⟨hsound d hdc, hb.recvMsg.msgType⟩

include hs

/-- An answer to `e` is authentic. -/
theorem authentic_answer {m n : Bytes} {ty : MsgType} (hm : Carries m ty n)
    (hd : (msgFromAddr m).endpoint = (msgFromAddr b).endpoint)
    (hsound : Authentic cfg called none (some e) (recvMsg (sockAddr serverEndpoint) (wireOf m)))
    (y : Option ι) (x : Bytes) (hx : x ∈ waiting (cfg.socket none) (cfg.socket y) [m]) :
    Authentic cfg called none y x ∧ msgMsgType x = ty := by
  obtain ⟨m', hm', hd', rfl⟩ := mem_waiting.mp hx
  obtain rfl := List.mem_singleton.mp hm'
  rw [hd, hs] at hd'
  obtain rfl : some e = y := cfg.socket_injective hd'
  exact ⟨hsound, hm.recvMsg.msgType⟩

include he

theorem authentic_rename {n : Bytes} (hb : Carries b .login (cfg.bytes e)) (hn : (0 : UInt8) ∉ n)
    (hlen : n.length < usernameMaxLength) (y : Option ι) (x : Bytes)
    (hx : x ∈ waiting (cfg.socket none) (cfg.socket y) [rename b n]) :
    Authentic cfg called none y x ∧ Answers b x := by
  have hlong : offUserName ≤ b.length := le_trans (by decide) hb.long
  have hc : Carries (rename b n) .login n := hb.rename hn hlen
  obtain ⟨hsound, hx⟩ := authentic_answer hs hc (by rw [msgFromAddr_rename hlong])
    (.reply e he n hc.recvMsg) y x hx
  exact ⟨hsound, by simp [Answers, hx]⟩

include hl

theorem server_takes_login (hb : Carries b .login (cfg.bytes e)) :
    wp (hatchMsgProc serverProtocol b) False (fun _ t => ∃ ms,
      ListOf cfg called none t.userList ∧ Yields cfg called none b s t ms) s := by
  refine wp_mono ?_ (server_login (n := cfg.name e) hb)
  rintro _ t (⟨-, ht⟩ | ⟨-, ht⟩ | ⟨-, ht⟩)
  · exact ⟨_, ht.userList ▸ hl,
      ht.yields (authentic_rename he hs hb (by decide) (by decide)) (fun _ => rfl)⟩
  · obtain ⟨u, us, hlu, hu, hus⟩ := hl
    have hv : EntryOf cfg (loginUser b) e := ⟨hb.name, hs⟩
    have hus' : ∀ v ∈ us ++ [loginUser b], ∃ d, called d = true ∧ EntryOf cfg v d := by
      intro v hmem
      rcases List.mem_append.mp hmem with hmem | hmem
      · exact hus v hmem
      · exact ⟨e, he, List.mem_singleton.mp hmem ▸ hv⟩
    have hup : CarriesAddr (announcement s.junk b) .update (cfg.bytes e) (msgFromAddr b) := by
      rw [← hb.name]
      exact carriesAddr_updateMsg (zero_notMem_cstr _ _) (hb.name.symm ▸ (cfg.name e).fits)
    refine ⟨_, ?_, ht.yields ?_ (fun _ => rfl)⟩
    · rw [ht.userList, hlu]
      exact ⟨u, us ++ [loginUser b], rfl, hu, hus'⟩
    · intro y x hx
      rw [hlu, ← List.singleton_append, waiting_append] at hx
      rcases List.mem_append.mp hx with hx | hx
      · exact authentic_rename he hs hb (by decide) (by decide) y x hx
      · obtain ⟨hsound, hx⟩ := authentic_group hup.toCarries hus'
          (fun d hd => .announced e d he hd _ hup.recvMsg hs) y x hx
        exact ⟨hsound, by simp [Answers, hx]⟩
  · exact ⟨_, ht.userList ▸ hl,
      ht.yields (authentic_rename he hs hb (by decide) (by decide)) (fun _ => rfl)⟩

theorem server_takes_logout [DecidableEq ι] (hb : Carries b .logout (cfg.bytes e)) :
    wp (hatchMsgProc serverProtocol b) False (fun _ t => ∃ ms,
      ListOf cfg called none t.userList ∧ Yields cfg called none b s t ms) s := by
  obtain ⟨u, us, hlu, hu, hus⟩ := hl
  have herase : eraseUser (cfg.bytes e) s.userList = u :: eraseUser (cfg.bytes e) us := by
    rw [hlu, eraseUser_cons_of_ne (hu ▸ cfg.bytes_ne_server e)]
  have hus' : ∀ v ∈ eraseUser (cfg.bytes e) us, ∃ d, called d = true ∧ EntryOf cfg v d :=
    fun v hv => hus v (List.mem_of_mem_eraseIdx hv)
  have hne : eraseUser (cfg.name e).bytes s.userList ≠ [] := by
    change eraseUser (cfg.bytes e) s.userList ≠ []
    rw [herase]
    simp
  refine wp_mono ?_ (server_logout (n := cfg.name e) hb hne)
  rintro _ t (⟨-, ht⟩ | ⟨-, ht⟩)
  · refine ⟨_, ?_, ht.yields ?_ (fun _ => rfl)⟩
    · rw [ht.userList]
      exact ⟨u, _, herase, hu, hus'⟩
    · intro y x hx
      change x ∈ waiting _ _
        (b :: groupCopies b ((eraseUser (cfg.bytes e) s.userList).drop 1)) at hx
      rw [herase, ← List.singleton_append, waiting_append] at hx
      rcases List.mem_append.mp hx with hx | hx
      · obtain ⟨hsound, hx⟩ := authentic_answer hs hb rfl (.dismissed e e he he hb.recvMsg) y x hx
        exact ⟨hsound, by simp [Answers, hx, hb.msgType]⟩
      · obtain ⟨hsound, hx⟩ := authentic_group hb hus'
          (fun d hd => .dismissed e d he hd hb.recvMsg) y x hx
        exact ⟨hsound, by simp [Answers, hx, hb.msgType]⟩
  · exact ⟨[], ht.userList ▸ ⟨u, us, hlu, hu, hus⟩, ht.silent (fun _ => rfl)⟩

end Server

theorem server_takes_unread (hl : ListOf cfg called none s.userList) (hb : Unread b) :
    wp (hatchMsgProc serverProtocol b) False (fun _ t => ∃ ms,
      ListOf cfg called none t.userList ∧ Yields cfg called none b s t ms) s := by
  obtain ⟨k, hk⟩ := hb.msgType
  have h24 : offProtocolType + 4 ≤ b.length := le_trans (by decide) hb.long
  rw [wp_hatchMsgProc, if_pos h24, hb.protocolType]
  simp only [if_pos hb.long, hk]
  exact ⟨[], hl, rfl, rfl, fun _ _ hx => absurd hx List.not_mem_nil, fun _ => rfl⟩

/-- A party that takes an authentic message keeps its list and sends authentic messages. -/
theorem party_takes [DecidableEq ι] (hr : cfg.Regular) {q : Option ι}
    (hb : Authentic cfg called p q b) (hs : (msgFromAddr b).endpoint = cfg.socket p)
    (hl : ListOf cfg called q s.userList) :
    wp (hatchMsgProc (protocolOf q) b) False (fun _ t => ∃ ms,
      ListOf cfg called q t.userList ∧ Yields cfg called q b s t ms ∧
      ∀ c, q = some c → Meets cfg p c b s t ms) s := by
  cases q with
  | none =>
      have hw : wp (hatchMsgProc serverProtocol b) False (fun _ t => ∃ ms,
          ListOf cfg called none t.userList ∧ Yields cfg called none b s t ms) s := by
        cases hb with
        | login e he h => exact server_takes_login hl he hs h
        | logout e he h => exact server_takes_logout hl he hs h
        | unread e h => exact server_takes_unread hl h
      refine wp_mono ?_ hw
      rintro _ t ⟨ms, hlist, hy⟩
      exact ⟨ms, hlist, hy, nofun⟩
  | some c =>
      obtain ⟨u, own, us, peers, hlu, hk⟩ := hl
      have hw : wp (hatchMsgProc clientProtocol b) False (fun _ t => ∃ ms,
          ListOf cfg called (some c) t.userList ∧ Yields cfg called (some c) b s t ms ∧
          Meets cfg p c b s t ms) s := by
        cases hb with
        | reply _ hc n h => exact client_takes_reply hk hlu h
        | announced e _ he hc a h ha => exact client_takes_announced hk hlu hc he h ha
        | dismissed e _ he hc h => exact client_takes_dismissed hk hlu h
        | greeting e _ he hc a h ha => exact client_takes_greeting hk hlu hc he h ha
        | word e _ hec hc w h => exact client_takes_word hk hlu hc hr hec h
      refine wp_mono ?_ hw
      rintro _ t ⟨ms, hlist, hy, hm⟩
      exact ⟨ms, hlist, hy, fun d hd => Option.some.inj hd ▸ hm⟩

end Handlers

end Hatch.Net
