import Hatch.Inevitability
import Hatch.NetLines

/-!
# Nothing is missed

On a network that loses nothing and keeps the order of each sender and receiver, with lists that
never fill up and with nobody who leaves, every word that is typed at a client once it lists
another is shown there, in order and without a gap. A client lists a peer when it has greeted it
or has been greeted by it; its greeting is in front of all its words, so the peer knows it in time.
-/

namespace Hatch.Net

open ByteLayout FaultProgram Prog TransitionSystem

variable {ι : Type}

/-- The messages before the first greeting. -/
def ungreeted (l : List Bytes) : List Bytes := l.takeWhile (fun b => msgMsgType b ≠ .backSyn)

section Ungreeted

variable {l m : List Bytes} {b : Bytes}

theorem ungreeted_append_of_mem (h : ∃ b ∈ l, msgMsgType b = .backSyn) :
    ungreeted (l ++ m) = ungreeted l := by
  induction l with
  | nil => simp at h
  | cons a l ih =>
      by_cases ha : msgMsgType a = .backSyn
      · simp [ungreeted, ha]
      · have hl : ∃ b ∈ l, msgMsgType b = .backSyn := by simpa [ha] using h
        simpa [ungreeted, ha] using ih hl

theorem words_ungreeted_append (hl : words (ungreeted l) = []) (hm : words m = []) :
    words (ungreeted (l ++ m)) = [] := by
  by_cases hg : ∃ b ∈ l, msgMsgType b = .backSyn
  · rwa [ungreeted_append_of_mem hg]
  · push Not at hg
    have hall : ungreeted l = l := List.takeWhile_eq_self_iff.mpr (by simpa using hg)
    have hw : words (l ++ m) = [] := by rw [words_append, ← hall, hl, hm, List.append_nil]
    exact List.eq_nil_of_sublist_nil (hw ▸ words_sublist (List.takeWhile_sublist _))

end Ungreeted

/-- `lists c d` says that client `c` lists `d`. -/
structure Introduced (lists : ι → ι → Prop) (pipe : Option ι → Option ι → List Bytes) :
    Prop where
  staying : ∀ p q, ∀ b ∈ pipe p q, msgMsgType b ≠ .logout
  greeted : ∀ c d, ∀ b ∈ pipe (some c) (some d), msgMsgType b = .backSyn → lists c d
  met : ∀ c d, lists c d →
    lists d c ∨ ∃ b ∈ pipe (some c) (some d), msgMsgType b = .backSyn
  first : ∀ c d, lists d c ∨ words (ungreeted (pipe (some c) (some d))) = []

section Introduced

variable {cfg : Config ι} {lists lists' : ι → ι → Prop}
  {pipe pipe' : Option ι → Option ι → List Bytes} {p q : Option ι} {b : Bytes} {c d : ι}

/-- A client that takes a word lists the sender. -/
theorem Introduced.known_of_word (h : Introduced lists pipe) {r : List Bytes}
    (hp : pipe (some c) (some d) = b :: r) (hb : msgMsgType b = .text) : lists d c := by
  refine (h.first c d).resolve_right ?_
  rw [hp]
  simp [ungreeted, hb, words]

variable [DecidableEq ι]

theorem mem_sending {ms : List Bytes} {x y : Option ι}
    (hb : b ∈ sending cfg q ms pipe x y) :
    b ∈ pipe x y ∨ x = q ∧ b ∈ waiting (cfg.socket q) (cfg.socket y) ms := by
  rcases List.mem_append.mp hb with hb | hb
  · exact .inl hb
  · split_ifs at hb with hx
    · exact .inr ⟨hx, hb⟩
    · exact absurd hb List.not_mem_nil

theorem words_waiting {ms : List Bytes}
    (hms : ∀ y, ∀ x ∈ waiting (cfg.socket q) (cfg.socket y) ms, msgMsgType x ≠ .text)
    (x y : Option ι) :
    words (if x = q then waiting (cfg.socket q) (cfg.socket y) ms else []) = [] := by
  apply words_eq_nil
  intro b hb
  split_ifs at hb
  · exact hms y b hb
  · exact absurd hb List.not_mem_nil

/-- Party `q` sends messages `ms`, no words; a client whom it lists from now on is greeted. -/
theorem Introduced.sent (h : Introduced lists pipe) {ms : List Bytes}
    (hms : ∀ y, ∀ x ∈ waiting (cfg.socket q) (cfg.socket y) ms,
      msgMsgType x ≠ .text ∧ msgMsgType x ≠ .logout)
    (hl : ∀ c d, lists' c d ↔ lists c d ∨ q = some c ∧
      ∃ x ∈ waiting (cfg.socket q) (cfg.socket (some d)) ms, msgMsgType x = .backSyn) :
    Introduced lists' (sending cfg q ms pipe) := by
  refine ⟨?_, ?_, ?_, ?_⟩
  · intro x y b hb
    rcases mem_sending hb with hb | ⟨-, hb⟩
    · exact h.staying x y b hb
    · exact (hms y b hb).2
  · intro c d b hb ht
    rw [hl]
    rcases mem_sending hb with hb | ⟨hq, hb⟩
    · exact .inl (h.greeted c d b hb ht)
    · exact .inr ⟨hq.symm, b, hb, ht⟩
  · intro c d hcd
    rcases (hl c d).mp hcd with hcd | ⟨hq, x, hx, ht⟩
    · rcases h.met c d hcd with hdc | ⟨b, hb, ht⟩
      · exact .inl ((hl d c).mpr (.inl hdc))
      · exact .inr ⟨b, List.mem_append_left _ hb, ht⟩
    · refine .inr ⟨x, List.mem_append_right _ ?_, ht⟩
      rwa [if_pos hq.symm]
  · intro c d
    rcases h.first c d with hdc | hw
    · exact .inl ((hl d c).mpr (.inl hdc))
    · exact .inr (words_ungreeted_append hw (words_waiting (fun y x hx => (hms y x hx).1) _ _))

/-- Party `q` takes message `b` of party `p`; a client whom it lists from now on has greeted it. -/
theorem Introduced.taken (h : Introduced lists pipe)
    (hp : ∀ x y, pipe x y = (if x = p ∧ y = q then [b] else []) ++ pipe' x y)
    (hl : ∀ c d, lists' c d ↔ lists c d ∨ q = some c ∧ p = some d ∧ msgMsgType b = .backSyn) :
    Introduced lists' pipe' := by
  have hmem {x y : Option ι} {a : Bytes} (ha : a ∈ pipe' x y) : a ∈ pipe x y := by
    rw [hp]
    exact List.mem_append_right _ ha
  refine ⟨?_, ?_, ?_, ?_⟩
  · exact fun x y a ha => h.staying x y a (hmem ha)
  · exact fun c d a ha ht => (hl c d).mpr (.inl (h.greeted c d a (hmem ha) ht))
  · intro c d hcd
    rcases (hl c d).mp hcd with hcd | ⟨hq, hd, ht⟩
    · rcases h.met c d hcd with hdc | ⟨a, ha, ht⟩
      · exact .inl ((hl d c).mpr (.inl hdc))
      · rw [hp] at ha
        rcases List.mem_append.mp ha with ha | ha
        · split_ifs at ha with hx
          · rw [List.mem_singleton.mp ha] at ht
            exact .inl ((hl d c).mpr (.inr ⟨hx.2.symm, hx.1.symm, ht⟩))
          · exact absurd ha List.not_mem_nil
        · exact .inr ⟨a, ha, ht⟩
    · have hb : b ∈ pipe (some d) (some c) := by
        rw [hp, if_pos ⟨hd.symm, hq.symm⟩]
        exact List.mem_append_left _ (List.mem_singleton_self b)
      exact .inl ((hl d c).mpr (.inl (h.greeted d c b hb ht)))
  · intro c d
    rcases h.first c d with hdc | hw
    · exact .inl ((hl d c).mpr (.inl hdc))
    · rw [hp] at hw
      split_ifs at hw with hx
      · by_cases ht : msgMsgType b = .backSyn
        · exact .inl ((hl d c).mpr (.inr ⟨hx.2.symm, hx.1.symm, ht⟩))
        · right
          rw [List.singleton_append, ungreeted,
            List.takeWhile_cons_of_pos (by simpa using ht)] at hw
          exact List.eq_nil_of_sublist_nil (hw ▸ words_sublist (List.sublist_cons_self ..))
      · exact .inr hw

/-- Client `c` sends words to peers. -/
theorem Introduced.words_sent (h : Introduced lists pipe) {ms : List Bytes}
    (htext : ∀ y, ∀ x ∈ waiting (cfg.socket (some c)) (cfg.socket y) ms,
      msgMsgType x = .text)
    (hno : ∀ d, ¬ lists c d → waiting (cfg.socket (some c)) (cfg.socket (some d)) ms = []) :
    Introduced lists (sending cfg (some c) ms pipe) := by
  refine ⟨?_, ?_, ?_, ?_⟩
  · intro x y a ha
    rcases mem_sending ha with ha | ⟨-, ha⟩
    · exact h.staying x y a ha
    · simp [htext y a ha]
  · intro e d a ha hb
    rcases mem_sending ha with ha | ⟨-, ha⟩
    · exact h.greeted e d a ha hb
    · rw [htext _ a ha] at hb
      cases hb
  · intro e d hed
    exact (h.met e d hed).imp_right (fun ⟨a, ha, hb⟩ => ⟨a, List.mem_append_left _ ha, hb⟩)
  · intro e d
    by_cases hec : some e = some c
    · obtain rfl := Option.some.inj hec
      rw [sending, if_pos rfl]
      by_cases hl : lists e d
      -- the greeting is in front of the word, or has arrived
      · rcases h.met e d hl with hde | hg
        · exact .inl hde
        · rw [ungreeted_append_of_mem hg]
          exact h.first e d
      · rw [hno d hl, List.append_nil]
        exact h.first e d
    · rw [sending, if_neg hec, List.append_nil]
      exact h.first e d

end Introduced

def System.lists (cfg : Config ι) (s : System ι) (c d : ι) : Prop :=
  Lists cfg (s.proc (some c)).userList d

instance (cfg : Config ι) (s : System ι) (c d : ι) : Decidable (s.lists cfg c d) :=
  inferInstanceAs (Decidable (_ ∈ _))

structure HeardInv (cfg : Config ι) (s : Talk ι) : Prop where
  running : ∀ p, (s.sys.proc p).runnerEnd = false
  staying : ∀ c, s.sys.logoutCalled c = false
  active : ∀ c, ∀ u ∈ (s.sys.proc (some c)).userList.drop 2, u.Active
  met : Introduced (s.sys.lists cfg) (s.sys.pipe cfg)

/-- No peer is forgotten, and what is on the way to it grows by what is typed. -/
def Keeps (cfg : Config ι) (s t : Talk ι) : Prop :=
  ∀ c d, s.sys.lists cfg c d → t.sys.lists cfg c d ∧
    ∃ new, t.typed c = s.typed c ++ new ∧ t.onWay cfg c d = s.onWay cfg c d ++ new

theorem Keeps.trans {cfg : Config ι} {s t u : Talk ι} (h : Keeps cfg s t) (h' : Keeps cfg t u) :
    Keeps cfg s u := by
  intro c d hl
  obtain ⟨hl', new, ht, hw⟩ := h c d hl
  obtain ⟨hl'', new', ht', hw'⟩ := h' c d hl'
  exact ⟨hl'', new ++ new', by rw [ht', ht, List.append_assoc],
    by rw [hw', hw, List.append_assoc]⟩

theorem heardInv_start (cfg : Config ι) : HeardInv cfg (.start cfg) := by
  have hnil (p q : Option ι) : (System.start cfg).pipe cfg p q = [] := by
    cases p <;> cases q <;> rfl
  have hlists (c d : ι) : ¬ (System.start cfg).lists cfg c d := List.not_mem_nil
  refine ⟨?_, fun _ => rfl, fun c u hu => absurd hu List.not_mem_nil, ?_⟩
  · intro p
    cases p <;> rfl
  · refine ⟨?_, ?_, fun c d hl => absurd hl (hlists c d), fun c d => .inr ?_⟩
    · intro p q b hb
      change b ∈ (System.start cfg).pipe cfg p q at hb
      rw [hnil] at hb
      exact absurd hb List.not_mem_nil
    · intro c d b hb
      change b ∈ (System.start cfg).pipe cfg _ _ at hb
      rw [hnil] at hb
      exact absurd hb List.not_mem_nil
    · change words (ungreeted ((System.start cfg).pipe cfg _ _)) = []
      rw [hnil]
      rfl

/-- A client that lists the sender of a word shows it. -/
theorem prints_word {cfg : Config ι} {called : ι → Bool} {s : Process} {u own : UserInfo}
    {us : List UserInfo} {peers : List ι} {b w : Bytes} {c d : ι}
    (hk : Knows cfg called d u own us peers) (hl : s.userList = u :: own :: us)
    (hd : called d = true) (hcd : c ≠ d) (hb : CarriesText b (cfg.bytes c) w)
    (hc : Lists cfg s.userList c) (ha : ∀ v ∈ s.userList.drop 2, v.Active) :
    s.prints b = [(cfg.bytes c, w)] := by
  have hn : own.name = cfg.bytes d := by rw [hk.name, if_pos hd]
  have hne : cfg.bytes c ≠ cfg.bytes d := fun h => hcd (cfg.bytes_injective h)
  rw [hl] at hc ha
  have hlt : userIndex (cfg.bytes c) us < us.length := userIndex_lt_iff.mpr hc
  have hu : userIndex (cfg.bytes c) s.userList = userIndex (cfg.bytes c) us + 2 :=
    hl ▸ hk.userIndex_peer (hn ▸ hne.symm)
  have hown : s.userList[1]? = some own := by rw [hl]; rfl
  have hpeer : s.userList[userIndex (cfg.bytes c) s.userList]? =
      some us[userIndex (cfg.bytes c) us] := by
    rw [hu, hl, ← List.getElem?_eq_getElem hlt]
    rfl
  rw [Process.prints, if_pos hb.isChat, hb.name, hown, hpeer]
  simp only
  rw [if_pos ⟨hn ▸ hne, ha _ (List.getElem_mem hlt)⟩, hb.text]

variable [DecidableEq ι]

/-- Nobody logs out, and everything is delivered once and in order. -/
def Orderly (s : Talk ι) : TalkAction ι → Prop
  | .sys (.logout _) => False
  | .sys a => InOrder s.sys a
  | .text .. | .handleTemp _ => True

/-- Besides, no list refuses a message. -/
def Assured (cfg : Config ι) (s : Talk ι) (a : TalkAction ι) : Prop :=
  Orderly s a ∧ ∀ t ∈ s.execute cfg a, t.sys.NoOverflow

instance (s : Talk ι) (a : TalkAction ι) : Decidable (Orderly s a) :=
  match a with
  | .sys (.logout _) => .isFalse id
  | .sys (.deliver q i) => inferInstanceAs (Decidable (InOrder s.sys (.deliver q i)))
  | .sys (.lose i) => inferInstanceAs (Decidable (InOrder s.sys (.lose i)))
  | .sys (.memory ..) | .sys (.login _) | .sys (.servicesEnd _) | .sys (.transmit _)
  | .sys (.handle _) | .sys (.discard ..) | .sys (.abandon _) | .text .. | .handleTemp _ =>
      .isTrue trivial

instance [Fintype ι] (cfg : Config ι) (s : Talk ι) (a : TalkAction ι) :
    Decidable (Assured cfg s a) :=
  inferInstanceAs (Decidable (_ ∧ ∀ t ∈ s.execute cfg a, t.sys.NoOverflow))

section Steps

variable {cfg : Config ι} {R : List Bytes → List Bytes → Prop} {s : Talk ι} {s' : System ι}
  {u : Process}

variable (cfg) in
theorem lists_setProc {s : System ι} {p : Option ι} {N : ι → ι → Prop}
    (hl : ∀ c, p = some c → ∀ d, Lists cfg u.userList d ↔
      Lists cfg (s.proc p).userList d ∨ N c d) (c d : ι) :
    (s.setProc p u).lists cfg c d ↔ s.lists cfg c d ∨ p = some c ∧ N c d := by
  by_cases hc : p = some c
  · subst hc
    simpa [System.lists, System.setProc] using hl c rfl d
  · have hc' : some c ≠ p := fun h => hc h.symm
    simp [System.lists, System.setProc, hc, hc']

theorem lists_setProc_of_drop {s : System ι} {c : ι}
    (hd : u.userList.drop 2 = (s.proc (some c)).userList.drop 2) :
    (s.setProc (some c) u).lists cfg = s.lists cfg := by
  funext e d
  have hiff := lists_setProc cfg (s := s) (p := some c) (u := u) (N := fun _ _ => False)
    (fun e he d => by rw [or_false, Lists, Lists, hd]) e d
  simpa using hiff

theorem HeardInv.setProc (h : HeardInv cfg s) {p : Option ι} {typed : ι → List Bytes}
    {shown : ι → List (Bytes × Bytes)} (hrun : u.runnerEnd = (s.sys.proc p).runnerEnd)
    (hact : ∀ c, p = some c → (∀ v ∈ (s.sys.proc p).userList.drop 2, v.Active) →
      ∀ v ∈ u.userList.drop 2, v.Active)
    (hmet : Introduced ((s.sys.setProc p u).lists cfg) ((s.sys.setProc p u).pipe cfg)) :
    HeardInv cfg ⟨s.sys.setProc p u, typed, shown⟩ where
  running q := by
    by_cases hq : q = p
    · subst hq
      simpa [System.setProc, hrun] using h.running q
    · simpa [System.setProc, hq] using h.running q
  staying := h.staying
  active c := by
    by_cases hc : some c = p
    · subst hc
      simpa [System.setProc] using hact c rfl (h.active c)
    · simpa [System.setProc, hc] using h.active c
  met := hmet

omit [DecidableEq ι] in
/-- The messages are where they were, or in the next place. -/
theorem HeardInv.transport (h : HeardInv cfg s) (hcalled : s'.logoutCalled = s.sys.logoutCalled)
    (hproc : ∀ p, (s'.proc p).userList = (s.sys.proc p).userList ∧
      (s'.proc p).runnerEnd = (s.sys.proc p).runnerEnd ∧
      (s'.proc p).tempList = (s.sys.proc p).tempList)
    (hpipe : s'.pipe cfg = s.sys.pipe cfg) :
    HeardInv cfg { s with sys := s' } ∧ Keeps cfg s { s with sys := s' } := by
  have hlists : s'.lists cfg = s.sys.lists cfg := by
    funext c d
    rw [System.lists, System.lists, (hproc (some c)).1]
  refine ⟨⟨?_, ?_, ?_, ?_⟩, ?_⟩
  · exact fun p => (hproc p).2.1.trans (h.running p)
  · exact fun c => (congrFun hcalled c).trans (h.staying c)
  · intro c
    change ∀ u ∈ (s'.proc (some c)).userList.drop 2, u.Active
    rw [(hproc (some c)).1]
    exact h.active c
  · change Introduced (s'.lists cfg) (s'.pipe cfg)
    rw [hlists, hpipe]
    exact h.met
  · intro c d hl
    refine ⟨?_, [], (List.append_nil _).symm, ?_⟩
    · change s'.lists cfg c d
      rwa [hlists]
    · change said cfg c (s.shown d) ++ words (s'.pipe cfg _ _) ++
        words (s'.proc (some c)).tempList.list = _
      rw [hpipe, (hproc (some c)).2.2, List.append_nil]
      rfl

theorem setProc_same {p : Option ι} {s : System ι} (hl : u.userList = (s.proc p).userList)
    (hr : u.runnerEnd = (s.proc p).runnerEnd) (ht : u.tempList = (s.proc p).tempList)
    (q : Option ι) : ((s.setProc p u).proc q).userList = (s.proc q).userList ∧
      ((s.setProc p u).proc q).runnerEnd = (s.proc q).runnerEnd ∧
      ((s.setProc p u).proc q).tempList = (s.proc q).tempList := by
  by_cases hq : q = p
  · subst hq
    simp [System.setProc, hl, hr, ht]
  · simp [System.setProc, hq]

theorem HeardInv.deliver (h : HeardInv cfg s) (hT : TalkInv cfg R s) {q : Option ι} {i : ℕ}
    (hin : InOrder s.sys (.deliver q i : SystemAction ι))
    (he : s.sys.execute cfg (.deliver q i) = some s') (hno : s'.NoOverflow) :
    HeardInv cfg { s with sys := s' } ∧ Keeps cfg s { s with sys := s' } := by
  simp only [System.execute] at he
  split at he
  · rename_i d hd
    split_ifs at he with hq
    obtain ⟨a, u, hu, rfl⟩ := System.runOn_eq_some he
    have hmem : d ∈ s.sys.net := List.mem_of_getElem? hd
    obtain ⟨x, hx⟩ := hT.source d hmem
    have hm : recvMsg (sockAddr d.src) d.payload ∈ s.sys.pipe cfg x q := by
      refine List.mem_append_left _ (List.mem_append_right _ ?_)
      exact List.mem_map.mpr ⟨d, List.mem_filter.mpr ⟨hmem, by simp [hx, hq]⟩, rfl⟩
    have hlen := (hT.authentic x q _ hm).length
    have hfit : ¬ (d.payload = [] ∨ msgPacketMaxLength < d.payload.length) := by
      simp only [length_recvMsg, offMsgType, msgPacketMaxLength] at hlen ⊢
      rintro (h0 | h1)
      · simp [h0] at hlen
      · omega
    obtain ⟨sent, hu', -, hrecv, hall⟩ := hatchPacketRecvProc_delivers hfit hu
    have h0 : u.recvList.refused = 0 := by
      have hr := (hno q).1
      simpa [System.setProc] using hr
    refine h.transport rfl ?_ ?_
    · rw [hu']
      exact setProc_same (s := { s.sys with net := s.sys.net.eraseIdx i }) rfl rfl rfl
    · funext x y
      rw [System.pipe_setProc, hrecv, hall h0, hu', (System.pipe_split cfg hd).1]
      change pipeOf cfg _ (Function.update s.sys.send q (s.sys.send q)) (s.sys.net.eraseIdx i) _
        _ = _
      rw [Function.update_eq_self, (net_split hd).2]
      exact (pipeOf_deliver hq x y).2 (hin d hd)
  · cases he

/-- What is shown of a client grows by the word that is taken. -/
theorem HeardInv.said_printed (h : HeardInv cfg s) (hT : TalkInv cfg R s) {p q : Option ι}
    {b : Bytes} {r : MsgQueue} (hpop : (s.sys.proc q).recvList.pop = some (b, r))
    (hb : s.sys.recv q = b :: r.list) (hp : (msgFromAddr b).endpoint = cfg.socket p) (c d : ι) :
    said cfg c (s.printed (.handle q) d) = said cfg c (s.shown d) ++
      words (if some c = p ∧ some d = q then [b] else []) := by
  by_cases hd : q = some d
  · subst hd
    have hs : s.printed (.handle (some d)) d = s.shown d ++ (s.sys.proc (some d)).prints b := by
      simp only [Talk.printed, hpop, Talk.shows, Function.update_self]
    rw [hs, said_append]
    congr 1
    have hsound := hT.authentic_head hb hp
    by_cases ht : msgMsgType b = .text
    · obtain ⟨c₀, d₀, w, rfl, hd₀, hcd, hw⟩ := hsound.text ht
      obtain rfl := Option.some.inj hd₀
      obtain ⟨v, own, us, peers, hl, hk⟩ := hT.list (some d)
      have hpipe : s.sys.pipe cfg (some c₀) (some d) =
          b :: s.sys.popped cfg (some d) r.list (some c₀) (some d) := by
        rw [System.pipe_pop hb hp, if_pos ⟨rfl, rfl⟩]
        rfl
      rw [prints_word hk hl hsound.receiver_called hcd hw (h.met.known_of_word hpipe ht)
        (h.active d)]
      by_cases hc : c = c₀
      · subst hc
        rw [if_pos ⟨rfl, rfl⟩, words_singleton ht, hw.text]
        simp [said]
      · have hne : cfg.bytes c₀ ≠ cfg.bytes c := fun he => hc (cfg.bytes_injective he).symm
        rw [if_neg (fun hx => hc (Option.some.inj hx.1))]
        simp [said, hne, words]
    · rw [prints_of_not_text ht]
      split
      · exact (words_eq_nil (by simpa using ht)).symm
      · rfl
  · have hs : s.printed (.handle q) d = s.shown d := by
      cases q with
      | none => rfl
      | some e =>
          have hde : d ≠ e := fun hde => hd (by rw [hde])
          simp only [Talk.printed, hpop, Talk.shows, Function.update_of_ne hde]
    rw [hs, if_neg (fun hx => hd hx.2.symm)]
    simp [words]

omit [DecidableEq ι] in
/-- No client gets a message of its own, unless somebody leaves. -/
theorem HeardInv.sender_ne (h : HeardInv cfg s) (hT : TalkInv cfg R s) {p : Option ι} {c : ι}
    {b : Bytes} (hb : b ∈ s.sys.pipe cfg p (some c)) : p ≠ some c := by
  rintro rfl
  cases hT.authentic (some c) (some c) b hb with
  | greeting c d hc hd a hm ha =>
      obtain ⟨v, own, us, peers, hl, hk⟩ := hT.list (some c)
      have hlist : Lists cfg (s.sys.proc (some c)).userList c :=
        h.met.greeted c c b hb hm.msgType
      rw [Lists, hl] at hlist
      change cfg.bytes c ∈ names us at hlist
      rw [names_of_entries hk.entries, List.mem_map_of_injective cfg.bytes_injective] at hlist
      exact hk.others hlist
  | word c d hcd hd w hm => exact hcd rfl

theorem HeardInv.handle (h : HeardInv cfg s) (hT : TalkInv cfg R s) (hreg : cfg.Regular)
    {q : Option ι} (he : s.sys.execute cfg (.handle q) = some s') (hno : s'.NoOverflow) :
    HeardInv cfg { s with sys := s', shown := s.printed (.handle q) } ∧
      Keeps cfg s { s with sys := s', shown := s.printed (.handle q) } := by
  obtain ⟨b, r, u, a, hpop, hrun, rfl⟩ := handled_of_execute he
  obtain ⟨hl, -⟩ := MsgQueue.pop_eq_some hpop
  have hb : s.sys.recv q = b :: r.list := hl
  obtain ⟨p, hp⟩ := hT.origin q b (by simp [hb])
  have hpop' (x y : Option ι) : s.sys.pipe cfg x y = _ := System.pipe_pop hb hp x y
  have hmem : b ∈ s.sys.pipe cfg p q := by
    rw [hpop', if_pos ⟨rfl, rfl⟩]
    exact List.mem_append_left _ (List.mem_singleton_self b)
  have hstay := h.met.staying p q b hmem
  obtain ⟨ms, -, hy, hm⟩ := (wp_of_run hrun _).mp
    (party_takes (s := { s.sys.proc q with recvList := r }) hreg (hT.authentic_head hb hp) hp
      (hT.list q))
  have hpipe : (s.sys.setProc q u).pipe cfg =
      sending cfg q ms (s.sys.popped cfg q r.list) := by
    have hsent := (System.pipe_sent cfg (s := s.sys) hy.sendList).2 hno
    rwa [hy.recvList] at hsent
  have hplain (y : Option ι) (x : Bytes)
      (hx : x ∈ waiting (cfg.socket q) (cfg.socket y) ms) :
      msgMsgType x ≠ .text ∧ msgMsgType x ≠ .logout :=
    ⟨(hy.authentic y x hx).2.1, fun hxl => hstay ((hy.authentic y x hx).2.2 hxl)⟩
  have hlists := lists_setProc cfg (s := s.sys) (p := q) (u := u)
    (N := fun c d => (p = some d ∧ msgMsgType b = .backSyn) ∨
      ∃ x ∈ waiting (cfg.endpoint c) (cfg.endpoint d) ms, msgMsgType x = .backSyn) (by
      rintro c rfl d
      exact (hm c rfl).lists hstay (h.sender_ne hT hmem) d)
  have hmet : Introduced ((s.sys.setProc q u).lists cfg) ((s.sys.setProc q u).pipe cfg) := by
    rw [hpipe]
    refine (h.met.taken hpop' (fun _ _ => Iff.rfl)).sent hplain ?_
    intro c d
    rw [hlists, or_assoc, ← and_or_left]
    refine or_congr Iff.rfl (and_congr_right ?_)
    rintro rfl
    exact Iff.rfl
  refine ⟨h.setProc (hy.runs hstay) ?_ hmet, ?_⟩
  · rintro c rfl
    exact (hm c rfl).active
  · intro c d hcd
    refine ⟨(hlists c d).mpr (.inl hcd), [], (List.append_nil _).symm, ?_⟩
    have htemp : (s.sys.setProc q u).temp c = s.sys.temp c :=
      congrArg MsgQueue.list (setProc_temp ((tempList_of_run hrun).trans rfl) (some c))
    change said cfg c (s.printed (.handle q) d) ++ words ((s.sys.setProc q u).pipe cfg _ _) ++
      words ((s.sys.setProc q u).temp c) = _
    rw [htemp, hpipe, h.said_printed hT hpop hb hp, sending, words_append,
      words_waiting (fun y x hx => (hplain y x hx).1), List.append_nil, List.append_nil,
      Talk.onWay, hpop', words_append, List.append_assoc (said cfg c (s.shown d))]

theorem HeardInv.login (h : HeardInv cfg s) (hT : TalkInv cfg R s) {c : ι}
    (he : s.sys.execute cfg (.login c) = some s') (hno : s'.NoOverflow) :
    HeardInv cfg { s with sys := s' } ∧ Keeps cfg s { s with sys := s' } := by
  simp only [System.execute, Option.ite_none_left_eq_some, Option.map_eq_some_iff] at he
  obtain ⟨-, s₁, hs₁, rfl⟩ := he
  obtain ⟨a, u, hu, rfl⟩ := System.runOn_eq_some hs₁
  obtain ⟨v, own, us, peers, hl, hk⟩ := hT.list (some c)
  have hi : (s.sys.proc (some c)).userList[1]? = some own := by rw [hl]; rfl
  have hL := (wp_of_run hu _).mp (hatchClientLogin_leaves hi (cfg.name c))
  obtain ⟨htemp, -⟩ := wp_true_of_run hu (hatchClientRequest_keeps _ _ _)
  have hdrop : u.userList.drop 2 = (s.sys.proc (some c)).userList.drop 2 := by
    rw [hL.userList, hl]
    rfl
  have hpipe : (s.sys.setProc (some c) u).pipe cfg =
      sending cfg (some c) [requestMsg (s.sys.proc (some c)).junk .login (cfg.bytes c)]
        (s.sys.pipe cfg) := by
    rw [← System.popped_called hL.recvList]
    exact (System.pipe_sent cfg (s := s.sys) hL.sendList).2 hno
  have htype (y : Option ι) (x : Bytes) (hx : x ∈ waiting (cfg.socket (some c)) (cfg.socket y)
      [requestMsg (s.sys.proc (some c)).junk .login (cfg.bytes c)]) : msgMsgType x = .login :=
    (authentic_request (fun _ => true) rfl (.inl rfl) y x hx).2
  have hlists : (s.sys.setProc (some c) u).lists cfg = s.sys.lists cfg :=
    lists_setProc_of_drop hdrop
  have hmet : Introduced ((s.sys.setProc (some c) u).lists cfg)
      ((s.sys.setProc (some c) u).pipe cfg) := by
    rw [hpipe, hlists]
    refine h.met.sent (fun y x hx => by simp [htype y x hx]) (fun e d => ?_)
    refine ⟨.inl, ?_⟩
    rintro (hed | ⟨-, x, hx, ht⟩)
    · exact hed
    · rw [htype _ x hx] at ht
      cases ht
  have hi : HeardInv cfg { s with sys := s.sys.setProc (some c) u } :=
    h.setProc hL.runnerEnd (fun e he => by rw [hdrop]; exact id) hmet
  refine ⟨⟨hi.running, hi.staying, hi.active, hi.met⟩, ?_⟩
  intro e d hed
  refine ⟨?_, [], (List.append_nil _).symm, ?_⟩
  · change (s.sys.setProc (some c) u).lists cfg e d
    rwa [hlists]
  · have hte : (s.sys.setProc (some c) u).temp e = s.sys.temp e :=
      congrArg MsgQueue.list (setProc_temp htemp (some e))
    change said cfg e (s.shown d) ++ words ((s.sys.setProc (some c) u).pipe cfg _ _) ++
      words ((s.sys.setProc (some c) u).temp e) = _
    rw [hte, hpipe, sending, words_append,
      words_waiting (fun y x hx => by simp [htype y x hx]), List.append_nil, List.append_nil]
    rfl

theorem HeardInv.typing (h : HeardInv cfg s) (hT : TalkInv cfg R s) {c : ι} {w : Bytes}
    {t : Talk ι} (he : s.execute cfg (.text c w) = some t) (hno : t.sys.NoOverflow) :
    HeardInv cfg t ∧ Keeps cfg s t := by
  obtain ⟨m, k, hc, hb, rfl⟩ := hT.typed_of_execute he
  obtain ⟨sent, -, hsent, hall⟩ := MsgQueue.pushAll_list (s.sys.proc (some c)).tempList [m]
  have h0 : ((s.sys.proc (some c)).tempList.pushAll [m]).refused = 0 := by
    have hr := (hno (some c)).2.2
    simpa [System.setProc, Process.queues] using hr
  have hpipe : (s.sys.setProc (some c) ((s.sys.proc (some c)).queues k m)).pipe cfg =
      s.sys.pipe cfg := System.pipe_setProc_eq rfl rfl
  have hlists : (s.sys.setProc (some c) ((s.sys.proc (some c)).queues k m)).lists cfg =
      s.sys.lists cfg := lists_setProc_of_drop rfl
  refine ⟨h.setProc rfl (fun _ _ => id) (by rw [hpipe, hlists]; exact h.met), ?_⟩
  intro e d hed
  refine ⟨by rwa [hlists], ?_⟩
  rw [Talk.onWay, hpipe]
  by_cases hec : e = c
  · subst hec
    have ht : (s.sys.setProc (some e) ((s.sys.proc (some e)).queues k m)).temp e =
        s.sys.temp e ++ [m] := by
      rw [hall h0] at hsent
      simpa [System.setProc, System.temp, Process.queues] using hsent
    refine ⟨[w], Function.update_self .., ?_⟩
    rw [ht, words_append, words_singleton hb.msgType, hb.text, ← List.append_assoc]
    rfl
  · have hne : some e ≠ some c := fun hs => hec (Option.some.inj hs)
    have ht : (s.sys.setProc (some c) ((s.sys.proc (some c)).queues k m)).temp e =
        s.sys.temp e := by
      simp [System.setProc, System.temp, hne]
    refine ⟨[], ?_, ?_⟩
    · rw [List.append_nil]
      exact Function.update_of_ne hec ..
    · rw [ht, List.append_nil]
      rfl

theorem HeardInv.sending (h : HeardInv cfg s) (hT : TalkInv cfg R s) {c : ι} {t : Talk ι}
    (he : s.execute cfg (.handleTemp c) = some t) (hno : t.sys.NoOverflow) :
    HeardInv cfg t ∧ Keeps cfg s t := by
  obtain ⟨b, w, q, u, hbt, hc, hb, htemp, hL, rfl⟩ := hT.sent_of_execute he
  obtain ⟨v, own, us, peers, hl, hk⟩ := hT.list (some c)
  have hus : (s.sys.proc (some c)).userList.drop 2 = us := by rw [hl]; rfl
  have hpeer (d : ι) : s.sys.lists cfg c d ↔ d ∈ peers := by
    rw [System.lists, Lists, hus, names_of_entries hk.entries,
      List.mem_map_of_injective cfg.bytes_injective]
  have hcopies (d : ι) : waiting (cfg.socket (some c)) (cfg.socket (some d)) (groupCopies b us) =
      if d ∈ peers then [recvMsg (sockAddr (cfg.endpoint c)) (wireOf b)] else [] :=
    waiting_group hb.toCarries hk.entries hk.nodup (cfg.endpoint c) d
  have hpipe : (s.sys.setProc (some c) u).pipe cfg =
      Net.sending cfg (some c) (groupCopies b us) (s.sys.pipe cfg) := by
    have hsent := (System.pipe_sent cfg (s := s.sys) hL.sendList).2 hno
    rwa [hus, System.popped_called hL.recvList] at hsent
  have hlists : (s.sys.setProc (some c) u).lists cfg = s.sys.lists cfg :=
    lists_setProc_of_drop (by rw [hL.userList])
  refine ⟨h.setProc hL.runnerEnd (fun _ _ => by rw [hL.userList]; exact id) ?_, ?_⟩
  · rw [hpipe, hlists]
    refine h.met.words_sent (fun y x hx => (authentic_words hk hb y x hx).2) (fun d hd => ?_)
    rw [hcopies, if_neg (fun hp => hd ((hpeer d).mpr hp))]
  · intro e d hed
    refine ⟨?_, [], (List.append_nil _).symm, ?_⟩
    · change (s.sys.setProc (some c) u).lists cfg e d
      rwa [hlists]
    · change said cfg e (s.shown d) ++ words ((s.sys.setProc (some c) u).pipe cfg _ _) ++
        words ((s.sys.setProc (some c) u).temp e) = _
      rw [hpipe, Net.sending, List.append_nil, Talk.onWay]
      by_cases hec : e = c
      · subst hec
        have ht : (s.sys.setProc (some e) u).temp e = q.list := by
          simp [System.setProc, System.temp, htemp]
        rw [ht, hbt, if_pos rfl, hcopies, if_pos ((hpeer d).mp hed), words_append,
          words_singleton hb.recvMsg.msgType, hb.recvMsg.text, words_cons hb.msgType, hb.text]
        simp only [List.append_assoc, List.singleton_append]
      · have hne : some e ≠ some c := fun hs => hec (Option.some.inj hs)
        have ht : (s.sys.setProc (some c) u).temp e = s.sys.temp e := by
          simp [System.setProc, System.temp, hne]
        rw [ht, if_neg hne, List.append_nil]

theorem HeardInv.step (h : HeardInv cfg s) (hT : TalkInv cfg R s) (hreg : cfg.Regular)
    {a : TalkAction ι} {t : Talk ι} (hG : Assured cfg s a) (he : s.execute cfg a = some t) :
    HeardInv cfg t ∧ Keeps cfg s t := by
  have hno := hG.2 t he
  cases a with
  | text c w => exact h.typing hT he hno
  | handleTemp c => exact h.sending hT he hno
  | sys a =>
      obtain ⟨s', hs', rfl⟩ := Option.map_eq_some_iff.mp he
      have hin := hG.1
      cases a with
      | memory p junk =>
          obtain rfl := Option.some.inj hs'
          exact h.transport rfl (setProc_same rfl rfl rfl) (System.pipe_setProc_eq rfl rfl)
      | login c => exact h.login hT hs' hno
      | logout c => exact hin.elim
      | servicesEnd c =>
          simp only [System.execute, h.staying c] at hs'
          cases hs'
      | transmit p =>
          simp only [System.execute] at hs'
          split at hs'
          · rename_i b q hq
            obtain rfl := Option.some.inj hs'
            exact h.transport rfl (setProc_same rfl rfl rfl) (System.pipe_transmit cfg hq)
          · cases hs'
      | deliver q i => exact h.deliver hT hin hs' hno
      | handle q => exact h.handle hT hreg hs' hno
      | abandon q =>
          simp only [System.execute, h.running q] at hs'
          split at hs' <;> cases hs'
      | discard q i =>
          simp only [System.execute, h.running q] at hs'
          split at hs'
          · simp at hs'
          · cases hs'
      | lose i => exact hin.elim

omit [DecidableEq ι] in
theorem Keeps.refl (cfg : Config ι) (s : Talk ι) : Keeps cfg s s :=
  fun _ _ hl => ⟨hl, [], (List.append_nil _).symm, (List.append_nil _).symm⟩

theorem heardInv_of_reaches (hreg : cfg.Regular) (h : Reaches (talk cfg) (Assured cfg) s) :
    HeardInv cfg s ∧ TalkInv cfg List.Subperm s := by
  refine h.invariant (I := fun s => HeardInv cfg s ∧ TalkInv cfg List.Subperm s) ?_ ?_
  · rintro _ rfl
    exact ⟨heardInv_start cfg, talkInv_start partOf_subperm hreg⟩
  · rintro s a t ⟨hi, hT⟩ hg he
    exact ⟨(hi.step hT hreg hg he).1, hT.step partOf_subperm hreg
      (.inl (fun hp hs => hp.symm.subperm.trans hs)) he⟩

theorem keeps_of_path (hreg : cfg.Regular) {t : Talk ι} (h : Reaches (talk cfg) (Assured cfg) s)
    (hp : Path (talk cfg) (Assured cfg) s t) : Keeps cfg s t := by
  induction hp with
  | refl => exact .refl cfg s
  | tail hp hg he ih =>
      obtain ⟨hi, hT⟩ := heardInv_of_reaches hreg (h.path hp)
      exact ih.trans (hi.step hT hreg hg he).2

omit [DecidableEq ι] in
/-- When no message is queued or in flight, everything has been shown. -/
theorem onWay_of_quiescent (hq : s.sys.Quiescent) (c d : ι) :
    s.onWay cfg c d = said cfg c (s.shown d) := by
  have hpipe : s.sys.pipe cfg (some c) (some d) = [] := by
    simp [System.pipe, pipeOf, System.recv, System.send, (hq.1 _).1, (hq.1 _).2.1, hq.2, arrived,
      flying, waiting]
  have htemp : s.sys.temp c = [] := (hq.1 (some c)).2.2
  rw [Talk.onWay, hpipe, htemp]
  simp [words]

/-- Every word that is typed at a client once it lists another is shown there, in order, without a
gap and once, when no message is queued or in flight. -/
theorem shown_of_listed (hreg : cfg.Regular) {t : Talk ι}
    (h : Reaches (talk cfg) (Assured cfg) s) (hp : Path (talk cfg) (Assured cfg) s t) {c d : ι}
    (hl : s.sys.lists cfg c d) (hq : t.sys.Quiescent) :
    ∃ new, t.typed c = s.typed c ++ new ∧
      said cfg c (t.shown d) = s.onWay cfg c d ++ new := by
  obtain ⟨-, new, ht, hw⟩ := keeps_of_path hreg h hp c d hl
  exact ⟨new, ht, by rw [← hw, onWay_of_quiescent hq]⟩

end Steps

/-- Alice types before Bob has logged in and once he has; she lists him from then on. -/
theorem shown_of_listed_pair : ∃ s t : Talk (Fin 2), Reaches (talk pair) (Assured pair) s ∧
    s.sys.lists pair 0 1 ∧ s.typed 0 = [[0x68, 0x69]] ∧ s.onWay pair 0 1 = [] ∧
    t.sys.Quiescent ∧ ∃ new, t.typed 0 = s.typed 0 ++ new ∧
      said pair 0 (t.shown 1) = s.onWay pair 0 1 ++ new := by
  obtain ⟨s, t, hs, hp, hl, hty, hw, hq⟩ := Reaches.exists_path (G := Assured pair)
    (Q := fun s t => s.sys.lists pair 0 1 ∧ s.typed 0 = [[0x68, 0x69]] ∧
      s.onWay pair 0 1 = [] ∧ t.sys.Quiescent)
    (.init (M := talk pair) rfl)
    ((bothLogin.take 10).map .sys ++ [.text 0 [0x68, 0x69], .handleTemp 0] ++
      (bothLogin.drop 10).map .sys)
    [.text 0 [0x62, 0x79, 0x65], .handleTemp 0, .sys (.transmit (some 0)),
      .sys (.transmit (some 0)), .sys (.deliver (some 1) 0), .sys (.deliver (some 1) 0),
      .sys (.handle (some 1)), .sys (.handle (some 1))] (by decide +kernel)
  exact ⟨s, t, hs, hl, hty, hw, hq, shown_of_listed pair_regular hs hp hl hq⟩

end Hatch.Net
