import Hatch.ByteLayout
import Hatch.TransitionSystem

/-!
# Requests and replies over a byte stream

One client and one server run `sink`. The client sends a buffer and takes one `recv` for the
answer; the server takes one `recv` for a request and sends the next number. The stream keeps
the bytes and not the calls, so a `recv` may return a part of a message or parts of two: then a
request is answered twice, or the client logs the rest of an earlier answer.
-/

namespace Hatch.TcpSink

open ByteLayout TransitionSystem

abbrev recvBufMax : ℕ := 1024
abbrev sendBufMax : ℕ := 1024
abbrev clientSendCnt : ℕ := 10000

def formatD (x : BitVec 32) : Bytes :=
  let digits := (Nat.toDigits 10 x.toInt.natAbs).map fun c => UInt8.ofNat c.toNat
  if x.toInt < 0 then 0x2D :: digits else digits

def sprintfD (buf : Bytes) (x : BitVec 32) : Bytes := patch buf 0 (formatD x ++ [0])

inductive ClientStage where
  | sending (i : ℕ)
  | receiving (i : ℕ)
  | returned
  deriving DecidableEq

inductive ServerStage where
  | receiving
  | replying
  | returned
  deriving DecidableEq

structure State where
  client : ClientStage
  server : ServerStage
  /-- Bytes on their way to the server. -/
  up : Bytes
  /-- Bytes on their way to the client. -/
  down : Bytes
  /-- `wbuf` and `rbuf` of the client. -/
  request : Bytes
  rbuf : Bytes
  /-- `wbuf` and `xno` of the server. -/
  wbuf : Bytes
  xno : BitVec 64
  requests : ℕ
  replies : ℕ
  /-- What the client logs: the number of bytes and the text in `rbuf`. -/
  logged : List (ℕ × Bytes)

inductive Action where
  | clientSend
  | serverRecv (n : ℕ)
  | serverSend
  | clientRecv (n : ℕ)
  | serverEnd

/-- A `recv` returns between one byte and a full buffer of what has arrived. -/
def Receives (n : ℕ) (stream : Bytes) : Prop := 1 ≤ n ∧ n ≤ recvBufMax ∧ n ≤ stream.length

instance (n : ℕ) (stream : Bytes) : Decidable (Receives n stream) :=
  inferInstanceAs (Decidable (_ ∧ _ ∧ _))

def nextPass (i : ℕ) : ClientStage := if i + 1 < clientSendCnt then .sending (i + 1) else .returned

section Effects

variable (s : State)

def State.clientSend (i : ℕ) : State :=
  { s with client := .receiving i, up := s.up ++ s.request, requests := s.requests + 1 }

def State.serverRecv (n : ℕ) : State := { s with server := .replying, up := s.up.drop n }

def State.serverSend : State :=
  { s with
    server := .receiving
    wbuf := sprintfD s.wbuf (s.xno.setWidth 32)
    xno := s.xno + 1
    down := s.down ++ sprintfD s.wbuf (s.xno.setWidth 32)
    replies := s.replies + 1 }

def State.clientRecv (i n : ℕ) : State :=
  { s with
    client := nextPass i
    rbuf := patch s.rbuf 0 (s.down.take n)
    down := s.down.drop n
    logged := s.logged ++ [(n, cstr (patch s.rbuf 0 (s.down.take n)) 0)] }

end Effects

/-- The server ends when the client has closed the connection and nothing is left to read. -/
def step (s : State) : Action → Option State
  | .clientSend => match s.client with
      | .sending i => some (s.clientSend i)
      | _ => none
  | .serverRecv n =>
      if s.server = .receiving ∧ Receives n s.up then some (s.serverRecv n) else none
  | .serverSend => if s.server = .replying then some s.serverSend else none
  | .clientRecv n => match s.client with
      | .receiving i => if Receives n s.down then some (s.clientRecv i n) else none
      | _ => none
  | .serverEnd =>
      if s.server = .receiving ∧ s.client = .returned ∧ s.up = [] then
        some { s with server := .returned }
      else none

/-- After `connect` and `accept`: the client has printed its process id into `wbuf`. -/
def start (pid : BitVec 32) : State where
  client := .sending 0
  server := .receiving
  up := []
  down := []
  request := sprintfD (List.replicate sendBufMax 0) pid
  rbuf := List.replicate recvBufMax 0
  wbuf := List.replicate sendBufMax 0
  xno := 0
  requests := 0
  replies := 0
  logged := []

def machine : Machine State Action where
  init s := ∃ pid, s = start pid
  step := step

/-- One reply for each request, and the text logged after request `i` is that of number `i`. -/
structure LockStep (s : State) : Prop where
  replies_le : s.replies ≤ s.requests
  replies_eq : s.up = [] → s.server ≠ .replying → s.replies = s.requests
  logged : ∀ i e, s.logged[i]? = some e → e.2 = formatD (BitVec.ofNat 32 i)

def WholeMessages (_ : State) : Action → Prop
  | .serverRecv n => n = sendBufMax
  | .clientRecv n => n = sendBufMax
  | _ => True

section Text

theorem zero_notMem_digits (n : ℕ) :
    (0 : UInt8) ∉ (Nat.toDigits 10 n).map fun c => UInt8.ofNat c.toNat := by
  intro h
  obtain ⟨c, hc, hzero⟩ := List.mem_map.mp h
  have hdigit := Nat.isDigit_of_mem_toDigits (by decide) le_rfl hc
  rw [Char.isDigit_iff_toNat] at hdigit
  have hnat := congrArg UInt8.toNat hzero
  rw [UInt8.toNat_ofNat'] at hnat
  have hfirst : '0'.toNat = 48 := rfl
  have hlast : '9'.toNat = 57 := rfl
  have hnul : UInt8.toNat 0 = 0 := rfl
  omega

theorem zero_notMem_formatD (x : BitVec 32) : (0 : UInt8) ∉ formatD x := by
  unfold formatD
  split
  · intro h
    rcases List.mem_cons.mp h with h | h
    · exact absurd h (by decide)
    · exact zero_notMem_digits _ h
  · exact zero_notMem_digits _

theorem length_formatD_le (x : BitVec 32) : (formatD x).length ≤ 11 := by
  have hlow := x.le_toInt
  have hhigh := x.toInt_lt
  have hlen : (Nat.toDigits 10 x.toInt.natAbs).length ≤ 10 :=
    (Nat.length_toDigits_le_iff (by decide) (by decide)).mpr (by omega)
  unfold formatD
  split
  · rw [List.length_cons, List.length_map]
    omega
  · rw [List.length_map]
    omega

theorem length_sprintfD {buf : Bytes} (h : buf.length = 1024) (x : BitVec 32) :
    (sprintfD buf x).length = 1024 := by
  have hx := length_formatD_le x
  rw [sprintfD, length_patch, h]
  rw [List.length_append, List.length_singleton]
  omega

theorem cstr_sprintfD (buf : Bytes) (x : BitVec 32) : cstr (sprintfD buf x) 0 = formatD x := by
  refine cstr_of_field ?_ (zero_notMem_formatD x)
  have hlen : (formatD x ++ [(0 : UInt8)]).length = (formatD x).length + 1 := List.length_append
  rw [← hlen]
  exact field_patch_same (Nat.zero_le _)

/-- A full buffer replaces a buffer of its size. -/
theorem patch_whole {b d : Bytes} (h : b.length = d.length) : patch b 0 d = d := by
  rw [patch, List.take_zero, List.nil_append, Nat.zero_add, ← h, List.drop_length,
    List.append_nil]

end Text

section Steps

variable {s t : State} {a : Action}

/-- What holds of the buffers and of the log all the time. -/
structure Base (s : State) : Prop where
  request : s.request.length = 1024
  rbuf : s.rbuf.length = 1024
  wbuf : s.wbuf.length = 1024
  logged : ∀ i e, s.logged[i]? = some e → e.2 = formatD (BitVec.ofNat 32 i)

structure Idle (s : State) : Prop where
  stages : s.client = .sending s.logged.length ∧ s.server = .receiving ∨
    s.client = .returned ∧ s.server ≠ .replying
  up : s.up = []
  down : s.down = []
  xno : s.xno = BitVec.ofNat 64 s.logged.length
  requests : s.requests = s.logged.length
  replies : s.replies = s.logged.length

structure Requested (s : State) : Prop where
  client : s.client = .receiving s.logged.length
  server : s.server = .receiving
  up : s.up.length = 1024
  down : s.down = []
  xno : s.xno = BitVec.ofNat 64 s.logged.length
  requests : s.requests = s.logged.length + 1
  replies : s.replies = s.logged.length

structure Taken (s : State) : Prop where
  client : s.client = .receiving s.logged.length
  server : s.server = .replying
  up : s.up = []
  down : s.down = []
  xno : s.xno = BitVec.ofNat 64 s.logged.length
  requests : s.requests = s.logged.length + 1
  replies : s.replies = s.logged.length

structure Replied (s : State) : Prop where
  client : s.client = .receiving s.logged.length
  server : s.server = .receiving
  up : s.up = []
  down : s.down.length = 1024
  number : cstr s.down 0 = formatD (BitVec.ofNat 32 s.logged.length)
  xno : s.xno = BitVec.ofNat 64 (s.logged.length + 1)
  requests : s.requests = s.logged.length + 1
  replies : s.replies = s.logged.length + 1

def Inv (s : State) : Prop := Base s ∧ (Idle s ∨ Requested s ∨ Taken s ∨ Replied s)

theorem logged_append {l : List (ℕ × Bytes)} {e : ℕ × Bytes}
    (hl : ∀ i e, l[i]? = some e → e.2 = formatD (BitVec.ofNat 32 i))
    (he : e.2 = formatD (BitVec.ofNat 32 l.length)) :
    ∀ i e', (l ++ [e])[i]? = some e' → e'.2 = formatD (BitVec.ofNat 32 i) := by
  intro i e' hi
  by_cases hlt : i < l.length
  · rw [List.getElem?_append_left hlt] at hi
    exact hl i e' hi
  · rw [List.getElem?_append_right (Nat.le_of_not_lt hlt)] at hi
    have hlen := (List.getElem?_eq_some_iff.mp hi).1
    rw [List.length_singleton] at hlen
    obtain rfl : i = l.length := by omega
    rw [Nat.sub_self] at hi
    cases hi
    exact he

theorem not_receives_nil (n : ℕ) : ¬ Receives n [] := fun h => absurd (h.1.trans h.2.2) (by decide)

theorem step_clientSend_iff :
    step s .clientSend = some t ↔ ∃ i, s.client = .sending i ∧ s.clientSend i = t := by
  rw [step]
  split
  · next i hc =>
    constructor
    · intro h
      exact ⟨i, hc, Option.some.inj h⟩
    · rintro ⟨i', hc', rfl⟩
      cases hc.symm.trans hc'
      rfl
  · next hc => exact ⟨nofun, fun ⟨i, hi, _⟩ => absurd hi (hc i)⟩

theorem step_clientRecv_iff {n : ℕ} : step s (.clientRecv n) = some t ↔
    ∃ i, s.client = .receiving i ∧ Receives n s.down ∧ s.clientRecv i n = t := by
  rw [step]
  split
  · next i hc =>
    rw [Option.ite_none_right_eq_some]
    constructor
    · rintro ⟨hr, h⟩
      exact ⟨i, hc, hr, Option.some.inj h⟩
    · rintro ⟨i', hc', hr, rfl⟩
      cases hc.symm.trans hc'
      exact ⟨hr, rfl⟩
  · next hc => exact ⟨nofun, fun ⟨i, hi, _⟩ => absurd hi (hc i)⟩

theorem step_serverRecv_iff {n : ℕ} : step s (.serverRecv n) = some t ↔
    (s.server = .receiving ∧ Receives n s.up) ∧ s.serverRecv n = t := by
  rw [step, Option.ite_none_right_eq_some, Option.some_inj]

theorem step_serverSend_iff :
    step s .serverSend = some t ↔ s.server = .replying ∧ s.serverSend = t := by
  rw [step, Option.ite_none_right_eq_some, Option.some_inj]

section Exchange

theorem Idle.clientSend (hb : Base s) (hp : Idle s) {i : ℕ} (hc : s.client = .sending i) :
    Base (s.clientSend i) ∧ Requested (s.clientSend i) := by
  rcases hp.stages with ⟨hc', hs⟩ | ⟨hc', -⟩
  · cases hc'.symm.trans hc
    refine ⟨⟨hb.request, hb.rbuf, hb.wbuf, hb.logged⟩,
      ⟨rfl, hs, ?_, hp.down, hp.xno, congrArg (· + 1) hp.requests, hp.replies⟩⟩
    change (s.up ++ s.request).length = 1024
    rw [hp.up, List.nil_append, hb.request]
  · cases hc'.symm.trans hc

theorem Requested.serverRecv (hb : Base s) (hp : Requested s) :
    Base (s.serverRecv sendBufMax) ∧ Taken (s.serverRecv sendBufMax) :=
  ⟨⟨hb.request, hb.rbuf, hb.wbuf, hb.logged⟩,
    ⟨hp.client, rfl, List.drop_eq_nil_of_le hp.up.le, hp.down, hp.xno, hp.requests, hp.replies⟩⟩

theorem Taken.serverSend (hb : Base s) (hp : Taken s) :
    Base s.serverSend ∧ Replied s.serverSend := by
  have hlow : s.xno.setWidth 32 = BitVec.ofNat 32 s.logged.length := by
    rw [hp.xno]
    exact BitVec.setWidth_ofNat_of_le (by decide) _
  have hdown : s.serverSend.down = sprintfD s.wbuf (BitVec.ofNat 32 s.logged.length) := by
    change s.down ++ sprintfD s.wbuf (s.xno.setWidth 32) = _
    rw [hp.down, List.nil_append, hlow]
  refine ⟨⟨hb.request, hb.rbuf, length_sprintfD hb.wbuf _, hb.logged⟩,
    ⟨hp.client, rfl, hp.up, ?_, ?_, ?_, hp.requests, congrArg (· + 1) hp.replies⟩⟩
  · rw [hdown, length_sprintfD hb.wbuf]
  · rw [hdown, cstr_sprintfD]
    rfl
  · change s.xno + 1 = _
    rw [hp.xno]
    exact (BitVec.ofNat_add s.logged.length 1).symm

theorem Replied.logged_clientRecv (hb : Base s) (hp : Replied s) (i : ℕ) :
    (s.clientRecv i sendBufMax).rbuf = s.down ∧ (s.clientRecv i sendBufMax).logged =
      s.logged ++ [(sendBufMax, formatD (BitVec.ofNat 32 s.logged.length))] := by
  have hrbuf : patch s.rbuf 0 (s.down.take sendBufMax) = s.down := by
    rw [List.take_of_length_le hp.down.le]
    exact patch_whole (hb.rbuf.trans hp.down.symm)
  refine ⟨hrbuf, ?_⟩
  change s.logged ++ [(sendBufMax, cstr (patch s.rbuf 0 (s.down.take sendBufMax)) 0)] = _
  rw [hrbuf, hp.number]

theorem Replied.clientRecv (hb : Base s) (hp : Replied s) :
    Base (s.clientRecv s.logged.length sendBufMax) ∧
      Idle (s.clientRecv s.logged.length sendBufMax) := by
  obtain ⟨hrbuf, hlogged⟩ := hp.logged_clientRecv hb s.logged.length
  have hlen : (s.clientRecv s.logged.length sendBufMax).logged.length = s.logged.length + 1 := by
    rw [hlogged]
    exact List.length_append
  refine ⟨⟨hb.request, hrbuf ▸ hp.down, hb.wbuf, ?_⟩,
    ⟨?_, hp.up, List.drop_eq_nil_of_le hp.down.le, ?_, ?_, ?_⟩⟩
  · rw [hlogged]
    exact logged_append hb.logged rfl
  · rw [hlen]
    change nextPass s.logged.length = _ ∧ s.server = _ ∨ nextPass s.logged.length = _ ∧ s.server ≠ _
    rw [nextPass, hp.server]
    split
    · exact .inl ⟨rfl, rfl⟩
    · exact .inr ⟨rfl, nofun⟩
  · rw [hlen]
    exact hp.xno
  · rw [hlen]
    exact hp.requests
  · rw [hlen]
    exact hp.replies

end Exchange

theorem Inv.clientSend (hi : Inv s) (he : step s .clientSend = some t) : Inv t := by
  obtain ⟨hb, hphase⟩ := hi
  obtain ⟨i, hclient, rfl⟩ := step_clientSend_iff.mp he
  rcases hphase with hp | hp | hp | hp
  · obtain ⟨hb', hp'⟩ := hp.clientSend hb hclient
    exact ⟨hb', .inr (.inl hp')⟩
  · cases hp.client.symm.trans hclient
  · cases hp.client.symm.trans hclient
  · cases hp.client.symm.trans hclient

theorem Inv.serverRecv (hi : Inv s) (he : step s (.serverRecv sendBufMax) = some t) : Inv t := by
  obtain ⟨hb, hphase⟩ := hi
  obtain ⟨⟨-, hr⟩, rfl⟩ := step_serverRecv_iff.mp he
  rcases hphase with hp | hp | hp | hp
  · exact absurd (hp.up ▸ hr) (not_receives_nil _)
  · obtain ⟨hb', hp'⟩ := hp.serverRecv hb
    exact ⟨hb', .inr (.inr (.inl hp'))⟩
  · exact absurd (hp.up ▸ hr) (not_receives_nil _)
  · exact absurd (hp.up ▸ hr) (not_receives_nil _)

theorem Inv.serverSend (hi : Inv s) (he : step s .serverSend = some t) : Inv t := by
  obtain ⟨hb, hphase⟩ := hi
  obtain ⟨hserver, rfl⟩ := step_serverSend_iff.mp he
  rcases hphase with hp | hp | hp | hp
  · rcases hp.stages with ⟨-, hs⟩ | ⟨-, hs⟩
    · cases hs.symm.trans hserver
    · exact absurd hserver hs
  · cases hp.server.symm.trans hserver
  · obtain ⟨hb', hp'⟩ := hp.serverSend hb
    exact ⟨hb', .inr (.inr (.inr hp'))⟩
  · cases hp.server.symm.trans hserver

theorem Inv.clientRecv (hi : Inv s) (he : step s (.clientRecv sendBufMax) = some t) : Inv t := by
  obtain ⟨hb, hphase⟩ := hi
  obtain ⟨i, hclient, hr, rfl⟩ := step_clientRecv_iff.mp he
  rcases hphase with hp | hp | hp | hp
  · exact absurd (hp.down ▸ hr) (not_receives_nil _)
  · exact absurd (hp.down ▸ hr) (not_receives_nil _)
  · exact absurd (hp.down ▸ hr) (not_receives_nil _)
  · cases hp.client.symm.trans hclient
    obtain ⟨hb', hp'⟩ := hp.clientRecv hb
    exact ⟨hb', .inl hp'⟩

theorem Inv.serverEnd (hi : Inv s) (he : step s .serverEnd = some t) : Inv t := by
  obtain ⟨hb, hphase⟩ := hi
  rw [step] at he
  split at he
  · next hr =>
    cases he
    refine ⟨⟨hb.request, hb.rbuf, hb.wbuf, hb.logged⟩, ?_⟩
    rcases hphase with hp | hp | hp | hp
    · exact .inl ⟨.inr ⟨hr.2.1, nofun⟩, hp.up, hp.down, hp.xno, hp.requests, hp.replies⟩
    · cases hp.client.symm.trans hr.2.1
    · cases hp.client.symm.trans hr.2.1
    · cases hp.client.symm.trans hr.2.1
  · cases he

theorem Inv.step (hi : Inv s) (hg : WholeMessages s a) (he : step s a = some t) : Inv t := by
  cases a with
  | clientSend => exact hi.clientSend he
  | serverRecv n =>
      cases hg
      exact hi.serverRecv he
  | serverSend => exact hi.serverSend he
  | clientRecv n =>
      cases hg
      exact hi.clientRecv he
  | serverEnd => exact hi.serverEnd he

theorem idle_start (pid : BitVec 32) : Idle (start pid) :=
  ⟨.inl ⟨rfl, rfl⟩, rfl, rfl, rfl, rfl, rfl⟩

theorem inv_start (pid : BitVec 32) : Inv (start pid) := by
  refine ⟨⟨?_, ?_, ?_, nofun⟩, .inl (idle_start pid)⟩
  · exact length_sprintfD List.length_replicate pid
  · exact List.length_replicate
  · exact List.length_replicate

theorem Inv.lockStep (hi : Inv s) : LockStep s := by
  obtain ⟨hb, hphase⟩ := hi
  rcases hphase with hp | hp | hp | hp
  · exact ⟨by rw [hp.replies, hp.requests], fun _ _ => hp.replies.trans hp.requests.symm,
      hb.logged⟩
  · refine ⟨by rw [hp.replies, hp.requests]; omega, fun hup _ => ?_, hb.logged⟩
    have hlen := hp.up
    rw [hup] at hlen
    cases hlen
  · exact ⟨by rw [hp.replies, hp.requests]; omega, fun _ hs => absurd hp.server hs, hb.logged⟩
  · exact ⟨by rw [hp.replies, hp.requests], fun _ _ => hp.replies.trans hp.requests.symm,
      hb.logged⟩

theorem inv_of_reaches (h : Reaches machine WholeMessages s) : Inv s := by
  refine Reaches.invariant ?_ ?_ h
  · rintro s ⟨pid, rfl⟩
    exact inv_start pid
  · intro s a t hi hg he
    exact hi.step hg he

/-- From between two exchanges the next one can be made. -/
theorem exchange (h : Reaches machine WholeMessages s) (hp : Idle s) {i : ℕ}
    (hc : s.client = .sending i) :
    ∃ t, Reaches machine WholeMessages t ∧ Idle t ∧ t.client = nextPass s.logged.length ∧
      t.logged = s.logged ++ [(sendBufMax, formatD (BitVec.ofNat 32 s.logged.length))] := by
  obtain ⟨hb1, hp1⟩ := hp.clientSend (inv_of_reaches h).1 hc
  obtain ⟨hb2, hp2⟩ := hp1.serverRecv hb1
  obtain ⟨hb3, hp3⟩ := hp2.serverSend hb2
  have h1 := Reaches.step h (a := Action.clientSend) trivial (step_clientSend_iff.mpr ⟨i, hc, rfl⟩)
  have h2 := Reaches.step h1 (a := Action.serverRecv sendBufMax) rfl
    (step_serverRecv_iff.mpr ⟨⟨hp1.server, by decide, le_rfl, hp1.up.ge⟩, rfl⟩)
  have h3 := Reaches.step h2 (a := Action.serverSend) trivial
    (step_serverSend_iff.mpr ⟨hp2.server, rfl⟩)
  have h4 := Reaches.step h3 (a := Action.clientRecv sendBufMax) rfl
    (step_clientRecv_iff.mpr ⟨_, hp3.client, ⟨by decide, le_rfl, hp3.down.ge⟩, rfl⟩)
  exact ⟨_, h4, (hp3.clientRecv hb3).2, rfl, (hp3.logged_clientRecv hb3 _).2⟩

/-- The client can make all its requests in this way. -/
theorem exchanges (pid : BitVec 32) (n : ℕ) (hn : n < clientSendCnt) :
    ∃ t, Reaches machine WholeMessages t ∧ Idle t ∧ t.client = nextPass n ∧
      t.logged.length = n + 1 := by
  induction n with
  | zero =>
      obtain ⟨t, ht, hp, hc, hl⟩ := exchange (.init ⟨pid, rfl⟩) (idle_start pid) rfl
      exact ⟨t, ht, hp, hc, by rw [hl]; rfl⟩
  | succ n ih =>
      obtain ⟨s, hs, hp, hc, hl⟩ := ih (by omega)
      rw [nextPass, if_pos hn] at hc
      obtain ⟨t, ht, hp', hc', hl'⟩ := exchange hs hp hc
      refine ⟨t, ht, hp', hl ▸ hc', ?_⟩
      rw [hl', List.length_append, hl]
      rfl

/-- A request that arrives in two parts is answered twice. -/
theorem split_request (h : Reachable machine s) (hb : Base s) (hp : Idle s) {i : ℕ}
    (hc : s.client = .sending i) : ∃ t, Reachable machine t ∧ t.replies = t.requests + 1 := by
  obtain ⟨-, hp1⟩ := hp.clientSend hb hc
  have hrest : ((s.clientSend i).up.drop 512).length = 512 := by
    rw [List.length_drop, hp1.up]
  have h1 := Reaches.step h (a := Action.clientSend) trivial
    (step_clientSend_iff.mpr ⟨i, hc, rfl⟩)
  have h2 := Reaches.step h1 (a := Action.serverRecv 512) trivial (step_serverRecv_iff.mpr
    ⟨⟨hp1.server, by decide, by decide, by rw [hp1.up]; decide⟩, rfl⟩)
  have hreply : ∀ s : State, (s.serverRecv 512).server = .replying := fun _ => rfl
  have hnext : ∀ s : State, s.serverSend.server = .receiving := fun _ => rfl
  have h3 := Reaches.step h2 (a := Action.serverSend) trivial
    (step_serverSend_iff.mpr ⟨hreply _, rfl⟩)
  have h4 := Reaches.step h3 (a := Action.serverRecv 512) trivial
    (step_serverRecv_iff.mpr ⟨⟨hnext _, by decide, by decide, hrest.ge⟩, rfl⟩)
  have h5 := Reaches.step h4 (a := Action.serverSend) trivial
    (step_serverSend_iff.mpr ⟨hreply _, rfl⟩)
  refine ⟨_, h5, ?_⟩
  change s.replies + 1 + 1 = s.requests + 1 + 1
  rw [hp.replies, hp.requests]

end Steps

/-- Where every `recv` returns a whole message, requests and replies go in step. -/
theorem sink_lockStep {s : State} (h : Reaches machine WholeMessages s) : LockStep s :=
  (inv_of_reaches h).lockStep

/-- A run with all ten thousand requests. -/
theorem sink_lockStep_all : ∃ s, Reaches machine WholeMessages s ∧
    s.logged.length = clientSendCnt ∧ LockStep s := by
  obtain ⟨s, hs, -, -, hl⟩ := exchanges 7 9999 (by decide)
  exact ⟨s, hs, hl, sink_lockStep hs⟩

/-- The server gets the first request in two parts and answers both. -/
theorem sink_answers_twice : ∃ s, Reachable machine s ∧ ¬ LockStep s := by
  obtain ⟨hb, -⟩ := inv_start 7
  obtain ⟨t, ht, hreplies⟩ := split_request (.init ⟨7, rfl⟩) hb (idle_start 7) rfl
  refine ⟨t, ht, fun h => ?_⟩
  have hle := h.replies_le
  omega

end Hatch.TcpSink
