import Hatch.NetSimulation

/-!
# Steps without a handler

The network, the fresh memory of a process and the calls of the user. A network
step leaves the abstract state as it is and at most loses or reorders messages; a
call sends one request.
-/

namespace Hatch.Net

open ByteLayout FaultProgram Prog TransitionSystem

variable {ι : Type}

section Requests

variable {s : Process} {own : UserInfo} (hi : s.userList[1]? = some own)
include hi

theorem hatchClientLogin_leaves (n : UserName) :
    wp (hatchClientLogin (some n.bytes)) False (fun _ t => s.Leaves t
      (s.userList.set 1 { own with name := n.bytes }) [requestMsg s.junk .login n.bytes]
      s.runnerEnd) s := by
  have hl := ne_nil_of_getElem? hi
  have hn : n.bytes.length < 32 := n.fits
  simp [hatchClientLogin, hatchClientRequest, hatchSetNameAt, wp_userAt, hl, hi, hn]
  exact ⟨rfl, rfl, rfl, rfl⟩

theorem hatchClientLogout_leaves :
    wp (hatchClientLogout none) False (fun _ t => s.Leaves t s.userList
      [requestMsg s.junk .logout own.name] s.runnerEnd) s := by
  have hl := ne_nil_of_getElem? hi
  simp [hatchClientLogout, hatchClientRequest, wp_userAt, hl, hi]
  exact ⟨rfl, rfl, rfl, rfl⟩

end Requests

variable [DecidableEq ι]

/-- A datagram of an acceptable size is queued, unless the receive queue is full. -/
theorem hatchPacketRecvProc_delivers {s u : Process} {e : SockAddrIn} {d : Bytes} {a : Unit}
    (hd : ¬ (d = [] ∨ msgPacketMaxLength < d.length))
    (hu : hatchPacketRecvProc e d s = .ok (a, u)) :
    ∃ sent, u = { s with recvList := u.recvList } ∧ sent.Sublist [recvMsg e d] ∧
      u.recvList.list = s.recvList.list ++ sent ∧
      (u.recvList.refused = 0 → sent = [recvMsg e d]) := by
  rw [hatchPacketRecvProc, if_neg hd] at hu
  obtain rfl : u = { s with recvList := s.recvList.pushAll [recvMsg e d] } := by
    cases hu
    rfl
  obtain ⟨sent, hsub, hlist, hall⟩ := MsgQueue.pushAll_list s.recvList [recvMsg e d]
  exact ⟨sent, rfl, hsub, hlist, hall⟩

section Transport

variable {cfg : Config ι} {s s' : System ι} {t : Roster.State ι} (h : Simulates cfg s t)
include h

theorem follows_memory {p : Option ι} {junk : ℕ → UInt8}
    (he : s.execute cfg (.memory p junk) = some s') :
    Follows cfg s (.memory p junk) s' t t (s.pipe cfg) := by
  obtain rfl := Option.some.inj he
  have hp : (s.setProc p { s.proc p with junk := junk }).pipe cfg = s.pipe cfg :=
    System.pipe_setProc_eq rfl rfl
  refine ⟨.inl rfl, h.1.setProc rfl (h.1.origin p) rfl, h.2, ?_, ?_⟩
  · exact fun x y => hp ▸ .refl _
  · exact fun _ _ x y => .inl (congrFun (congrFun hp x) y)

theorem follows_transmit {p : Option ι} (he : s.execute cfg (.transmit p) = some s') :
    Follows cfg s (.transmit p) s' t t (s.pipe cfg) := by
  simp only [System.execute] at he
  split at he
  · rename_i b q hq
    obtain rfl := Option.some.inj he
    obtain ⟨hl, -⟩ := MsgQueue.pop_eq_some hq
    have hp (x y : Option ι) : System.pipe cfg { s.setProc p { s.proc p with sendList := q } with
        net := s.net ++ [⟨cfg.socket p, (msgFromAddr b).endpoint, wireOf b⟩] } x y =
        s.pipe cfg x y := by
      change pipeOf cfg (s.setProc p _).recv (s.setProc p _).send _ x y = _
      rw [System.recv_setProc, System.send_setProc]
      change pipeOf cfg (Function.update s.recv p (s.recv p)) _ _ x y = _
      rw [Function.update_eq_self]
      exact pipeOf_transmit hl x y
    have ha : Agrees cfg (s.setProc p { s.proc p with sendList := q }) t :=
      h.1.setProc rfl (h.1.origin p) rfl
    refine ⟨.inl rfl, { ha with source := ?_ }, h.2, ?_, ?_⟩
    · intro d hd
      rcases List.mem_append.mp hd with hd | hd
      · exact h.1.source d hd
      · exact ⟨p, by rw [List.mem_singleton.mp hd]⟩
    · exact fun x y => hp x y ▸ .refl _
    · exact fun _ _ x y => .inl (hp x y)
  · cases he

omit [DecidableEq ι] in
/-- A datagram less changes no process. -/
theorem agrees_eraseIdx (i : ℕ) : Agrees cfg { s with net := s.net.eraseIdx i } t :=
  { h.1 with source := fun e he => h.1.source e (List.mem_of_mem_eraseIdx he) }

omit [DecidableEq ι] h in
/-- The pipes with the datagram at `i` and without it. -/
theorem System.pipe_split (cfg : Config ι) {i : ℕ} {d : Datagram} (hd : s.net[i]? = some d) :
    s.pipe cfg = pipeOf cfg s.recv s.send (s.net.take i ++ d :: s.net.drop (i + 1)) ∧
      System.pipe cfg { s with net := s.net.eraseIdx i } =
        pipeOf cfg s.recv s.send (s.net.take i ++ s.net.drop (i + 1)) := by
  obtain ⟨hnet, herase⟩ := net_split hd
  rw [← hnet, ← herase]
  exact ⟨rfl, rfl⟩

omit [DecidableEq ι] in
/-- What is on the way is neither empty nor too long to be received. -/
theorem received_of_flying {x q : Option ι} {d : Datagram} (hd : d ∈ s.net)
    (hs : d.src = cfg.socket x) (hq : d.dst = cfg.socket q) :
    ¬ (d.payload = [] ∨ msgPacketMaxLength < d.payload.length) := by
  have hm : recvMsg (sockAddr d.src) d.payload ∈ s.pipe cfg x q := by
    refine List.mem_append_left _ (List.mem_append_right _ ?_)
    exact List.mem_map.mpr ⟨d, List.mem_filter.mpr ⟨hd, by simp [hs, hq]⟩, rfl⟩
  obtain ⟨ty, n, hc⟩ := h.2.carries hm
  have hl : 69 ≤ (recvMsg (sockAddr d.src) d.payload).length := hc.long
  have hh : (recvMsg (sockAddr d.src) d.payload).length ≤ 1024 := hc.short
  rw [length_recvMsg] at hl hh
  simp only [msgPacketMaxLength]
  rintro (h0 | h1)
  · simp [h0] at hl
  · omega

theorem follows_deliver {q : Option ι} {i : ℕ} (he : s.execute cfg (.deliver q i) = some s') :
    Follows cfg s (.deliver q i) s' t t (s.pipe cfg) := by
  simp only [System.execute] at he
  split at he
  · rename_i d hd
    split_ifs at he with hq
    obtain ⟨a, u, hu, rfl⟩ := System.runOn_eq_some he
    have hmem : d ∈ s.net := List.mem_of_getElem? hd
    obtain ⟨x₀, hx₀⟩ := h.1.source d hmem
    obtain ⟨sent, hu', hsub, hrecv, hall⟩ :=
      hatchPacketRecvProc_delivers (received_of_flying h hmem hx₀ hq) hu
    have hold := System.pipe_split cfg hd
    have hpipe : System.pipe cfg (System.setProc { s with net := s.net.eraseIdx i } q u) =
        pipeOf cfg (Function.update s.recv q (s.recv q ++ sent)) s.send
          (s.net.take i ++ s.net.drop (i + 1)) := by
      rw [System.pipe_setProc, hrecv, hu', ← (net_split hd).2]
      exact congrArg (pipeOf cfg _ · _) (Function.update_eq_self q s.send)
    have hfrom : FromParty cfg u.recvList.list := by
      rw [hrecv]
      intro b hb
      rcases List.mem_append.mp hb with hb | hb
      · exact h.1.origin q b hb
      · rw [List.mem_singleton.mp (hsub.subset hb), msgFromAddr_recvMsg]
        exact ⟨x₀, hx₀⟩
    refine ⟨.inl rfl, (agrees_eraseIdx h i).setProc (hu' ▸ rfl) hfrom (hu' ▸ rfl), h.2, ?_, ?_⟩
    · intro x y
      rw [hpipe, hold.1]
      rcases List.sublist_singleton.mp hsub with rfl | rfl
      · rw [List.append_nil, Function.update_eq_self]
        exact (pipeOf_lose x y).subperm
      · exact (pipeOf_deliver hq x y).1.subperm
    · intro hin hno x y
      have hr := (hno q).1
      rw [hpipe, hold.1, hall (by simpa [System.setProc] using hr)]
      exact .inl ((pipeOf_deliver hq x y).2 (hin d hd))
  · cases he

theorem follows_lose {i : ℕ} (he : s.execute cfg (.lose i) = some s') :
    Follows cfg s (.lose i) s' t t (s.pipe cfg) := by
  simp only [System.execute, Option.ite_none_right_eq_some, Option.some.injEq] at he
  obtain ⟨hi, rfl⟩ := he
  have hold := System.pipe_split cfg (List.getElem?_eq_getElem hi)
  refine ⟨.inl rfl, agrees_eraseIdx h i, h.2, fun x y => ?_, fun hin => hin.elim⟩
  rw [hold.1, hold.2]
  exact (pipeOf_lose x y).subperm

omit [DecidableEq ι] in
theorem ended_of_runnerEnd {q : Option ι} (hq : (s.proc q).runnerEnd = true) :
    ∃ c, q = some c ∧ t.ended c = true := by
  cases q with
  | none => simp [h.1.serverRuns] at hq
  | some c => exact ⟨c, rfl, (h.1.ended c).trans hq⟩

theorem follows_discard {q : Option ι} {i : ℕ} (he : s.execute cfg (.discard q i) = some s') :
    Follows cfg s (.discard q i) s' t t (s.pipe cfg) := by
  simp only [System.execute] at he
  split at he
  · rename_i d hd
    simp only [Option.ite_none_right_eq_some, Option.some.injEq] at he
    obtain ⟨⟨hq, hend⟩, rfl⟩ := he
    have hold := System.pipe_split cfg hd
    refine ⟨.inl rfl, agrees_eraseIdx h i, h.2, fun x y => ?_, fun _ _ x y => ?_⟩
    · rw [hold.1, hold.2]
      exact (pipeOf_lose x y).subperm
    · by_cases hy : y = q
      · obtain ⟨c, hc, hce⟩ := ended_of_runnerEnd h hend
        exact .inr ⟨c, hy.trans hc, hce⟩
      · rw [hold.1, hold.2]
        exact .inl (pipeOf_lose_of_ne hq x hy)
  · cases he

theorem follows_abandon {q : Option ι} (he : s.execute cfg (.abandon q) = some s') :
    Follows cfg s (.abandon q) s' t t (s.pipe cfg) := by
  simp only [System.execute] at he
  split at he
  · rename_i b r hr
    simp only [Option.ite_none_right_eq_some, Option.some.injEq] at he
    obtain ⟨hend, rfl⟩ := he
    obtain ⟨hl, -⟩ := MsgQueue.pop_eq_some hr
    have hb : s.recv q = b :: r.list := hl
    obtain ⟨p, hp⟩ := h.1.origin q b (by simp [hb])
    have hpipe (x y : Option ι) :
        (s.setProc q { s.proc q with recvList := r }).pipe cfg x y = s.popped cfg q r.list x y := by
      rw [System.pipe_setProc]
      change pipeOf cfg _ (Function.update s.send q (s.send q)) _ x y = _
      rw [Function.update_eq_self]
      rfl
    have hfrom : FromParty cfg r.list :=
      fun b' hb' => h.1.origin q b' (by rw [hb]; exact List.mem_cons_of_mem _ hb')
    refine ⟨.inl rfl, h.1.setProc rfl hfrom rfl, h.2, fun x y => ?_, fun _ _ x y => ?_⟩
    · rw [hpipe, System.pipe_pop hb hp]
      exact (List.sublist_append_right _ _).subperm
    · by_cases hy : y = q
      · obtain ⟨c, hc, hce⟩ := ended_of_runnerEnd h hend
        exact .inr ⟨c, hy.trans hc, hce⟩
      · left
        rw [hpipe, System.pipe_pop hb hp, if_neg (fun hxy => hy hxy.2), List.nil_append]
  · cases he

end Transport

section Calls

variable {cfg : Config ι} {s s' : System ι} {t : Roster.State ι} {c : ι} (h : Simulates cfg s t)
include h

theorem follows_servicesEnd (he : s.execute cfg (.servicesEnd c) = some s') :
    Follows cfg s (.servicesEnd c) s' t { t with ended := Function.update t.ended c true }
      (s.pipe cfg) := by
  simp only [System.execute, Option.ite_none_right_eq_some] at he
  obtain ⟨hl, he⟩ := he
  obtain ⟨a, u, hu, rfl⟩ := System.runOn_eq_some he
  have hu' : u = { s.proc (some c) with runnerEnd := true } := by
    cases hu
    rfl
  have hp : (s.setProc (some c) u).pipe cfg = s.pipe cfg := by
    rw [hu']
    exact System.pipe_setProc_eq rfl rfl
  refine ⟨.inr ⟨_, .finish c, .finish c ((h.1.left c).trans hl)⟩, ?_, ?_, ?_, ?_⟩
  · rw [hu']
    refine h.1.setClient (h.1.client c) (h.1.origin (some c)) (by simp) rfl rfl rfl ?_
    exact fun x hx => ⟨rfl, rfl, by simp [hx]⟩
  · exact h.2.congr rfl rfl rfl
  · exact fun x y => hp ▸ .refl _
  · exact fun _ _ x y => .inl (congrFun (congrFun hp x) y)

theorem requested_flows {b : Bytes} {m : Roster.Request}
    (hd : (msgFromAddr b).endpoint = serverEndpoint)
    (hb : RequestOf cfg c (recvMsg (sockAddr (cfg.endpoint c)) (wireOf b)) m) :
    Flows cfg (sending cfg (some c) [b] (s.pipe cfg)) { t with up := Roster.push t.up c m } := by
  refine h.2.request (W := fun y => waiting (cfg.endpoint c) (cfg.socket y) [b])
    (fun _ _ => rfl) hb ?_ ?_
  · exact waiting_singleton.trans (if_pos hd)
  · intro d
    refine waiting_singleton.trans (if_neg ?_)
    rw [hd]
    exact fun he => cfg.endpoint_ne_server d he.symm

theorem follows_login (he : s.execute cfg (.login c) = some s') :
    ∃ P, Follows cfg s (.login c) s' t { t with
      called := Function.update t.called c true
      up := Roster.push t.up c .login } P := by
  simp only [System.execute, Option.ite_none_left_eq_some, Option.map_eq_some_iff] at he
  obtain ⟨hc, s₁, hs₁, rfl⟩ := he
  obtain ⟨a, u, hu, rfl⟩ := System.runOn_eq_some hs₁
  obtain ⟨own, hi, -, -⟩ := (h.1.client c).exists_own
  have hL := (wp_of_run hu _).mp (hatchClientLogin_leaves hi (cfg.name c))
  have hcalled : t.called c = false := (h.1.called c).trans (by simpa using hc)
  have hreq : Carries (requestMsg (s.proc (some c)).junk .login (cfg.bytes c)) .login
    (cfg.bytes c) := carries_requestMsg (by simp) (cfg.name c).noNul (cfg.name c).fits
  have hp := System.pipe_sent cfg hL.sendList
  rw [System.popped_called hL.recvList] at hp
  have hfrom : FromParty cfg u.recvList.list := by
    rw [hL.recvList]
    exact h.1.origin (some c)
  refine ⟨_, .inr ⟨_, .login c, .login c hcalled⟩, ?_, ?_, hp.1, fun _ hno x y => ?_⟩
  · refine ⟨?_, h.1.left, ?_, h.1.serverRuns, h.1.server, ?_, System.origin_setProc h.1 hfrom,
      h.1.source⟩
    · intro x
      exact congrFun (congrArg (Function.update · c true) (funext h.1.called)) x
    · intro x
      by_cases hx : x = c
      · subst hx
        simpa [System.setProc, hL.runnerEnd] using h.1.ended x
      · simpa [System.setProc, hx] using h.1.ended x
    · intro x
      by_cases hx : x = c
      · subst hx
        have hv := (h.1.client x).setName hi
        simpa [System.setProc, hL.userList, Config.bytes] using hv
      · simpa [System.setProc, hx] using h.1.client x
  · have hf := requested_flows h (m := .login) (msgFromAddr_requestMsg (cfg.name c).fits)
      hreq.recvMsg
    exact hf.congr rfl rfl rfl
  · exact .inl (congrFun (congrFun (hp.2 hno) x) y)

theorem follows_logout (he : s.execute cfg (.logout c) = some s') :
    ∃ P, Follows cfg s (.logout c) s' t { t with
      left := Function.update t.left c true
      up := Roster.push t.up c .logout } P := by
  simp only [System.execute, Option.ite_none_right_eq_some, Option.map_eq_some_iff] at he
  obtain ⟨hc, s₁, hs₁, rfl⟩ := he
  obtain ⟨a, u, hu, rfl⟩ := System.runOn_eq_some hs₁
  have hcalled : t.called c = true := (h.1.called c).trans hc
  have hv := h.1.client c
  rw [hcalled] at hv
  obtain ⟨own, hi, ho, -⟩ := hv.exists_own
  have hL := (wp_of_run hu _).mp (hatchClientLogout_leaves hi)
  rw [ho, if_pos rfl] at hL
  have hreq : Carries (requestMsg (s.proc (some c)).junk .logout (cfg.bytes c)) .logout
    (cfg.bytes c) := carries_requestMsg (by simp) (cfg.name c).noNul (cfg.name c).fits
  have hp := System.pipe_sent cfg hL.sendList
  rw [System.popped_called hL.recvList] at hp
  have ha : Agrees cfg (s.setProc (some c) u) t := by
    refine h.1.setProc hL.userList ?_ hL.runnerEnd
    rw [hL.recvList]
    exact h.1.origin (some c)
  refine ⟨_, .inr ⟨_, .logout c, .logout c hcalled⟩, { ha with left := ?_ }, ?_, hp.1,
    fun _ hno x y => ?_⟩
  · intro x
    exact congrFun (congrArg (Function.update · c true) (funext h.1.left)) x
  · have hf := requested_flows h (m := .logout) (msgFromAddr_requestMsg (cfg.name c).fits)
      hreq.recvMsg
    exact hf.congr rfl rfl rfl
  · exact .inl (congrFun (congrFun (hp.2 hno) x) y)

end Calls

end Hatch.Net
