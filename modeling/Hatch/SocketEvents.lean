import Hatch.ServerRequest
import Mathlib.Data.List.Forall2

/-!
# The events of the socket server

`CRPCNIOSocketServer::ProcessEvent` goes through a batch of events. A connection that can be read
is read into a buffer that all of them share, and what `recv` returns is taken for a length: a
closed connection makes an empty request, and a failed one a copy of negative length. A failed
`accept` ends the loop.
-/

namespace Hatch.Dir

open ByteLayout

def pbuffSize : ℕ := 8024

def epollIn : UInt32 := 0x001

def epollOut : UInt32 := 0x004

/-- What `recv` does: it fills the front of the buffer, finds the connection closed and returns
zero, or fails and returns -1. -/
inductive Recv where
  | data (bytes : Bytes) (ne_nil : bytes ≠ []) (length_le : bytes.length ≤ pbuffSize)
  | closed
  | failed

/-- An event, with what `accept` returns and what `recv` does if they are called for it. -/
structure Event where
  fd : Int
  events : UInt32
  accept : Int
  recv : Recv

/-- The server with the buffer, the descriptors that have been given to `AddFd`, and the requests
that the receiver has got. -/
structure Server where
  serversocket : Int
  pbuff : Bytes
  size : pbuff.length = pbuffSize
  connections : List Int
  received : List CServerRequest

def Server.addFd (s : Server) (fd : Int) : Server :=
  { s with connections := s.connections ++ [fd] }

def Server.receiveRecord (s : Server) (rq : CServerRequest) : Server :=
  { s with received := s.received ++ [rq] }

theorem length_filled {pbuff bytes : Bytes} (hsize : pbuff.length = pbuffSize)
    (h : bytes.length ≤ pbuffSize) : (patch pbuff 0 bytes).length = pbuffSize := by
  rw [length_patch (by omega), hsize]

def readBuff (s : Server) : Recv → Int × Server
  | .data bytes _ h => (bytes.length,
      { s with pbuff := patch s.pbuff 0 bytes, size := length_filled s.size h })
  | .closed => (0, s)
  | .failed => (-1, s)

/-- How a round of the loop ends: it goes on, returns, or copies out of bounds. -/
inductive Round where
  | next (s : Server)
  | ret (connfd : Int) (s : Server)
  | fault (f : Fault) (s : Server)

def handleEvent (s : Server) (e : Event) : Round :=
  if e.fd = s.serversocket then
    if e.accept < 0 then .ret e.accept s
    else .next (s.addFd e.accept)
  else if e.events &&& epollIn ≠ 0 then
    let (len, s) := readBuff s e.recv
    match inputBuffer .new (some s.pbuff) len with
    | .error f => .fault f s
    | .ok (_, rq) => .next (s.receiveRecord rq)
  else if e.events &&& epollOut ≠ 0 then .next s
  else .next s

/-- How a batch ends, with the value of `i`. -/
inductive Batch where
  | returned (ret : Int) (i : ℕ) (s : Server)
  | fault (f : Fault) (i : ℕ) (s : Server)

def processFrom (s : Server) (i : ℕ) : List Event → Batch
  | [] => .returned 0 i s
  | e :: es =>
      match handleEvent s e with
      | .next s => processFrom s (i + 1) es
      | .ret connfd s => .returned connfd i s
      | .fault f s => .fault f i s

def processEvent (s : Server) (es : List Event) : Batch := processFrom s 0 es

/-! ### What the events ask for -/

def Event.Readable (listening : Int) (e : Event) : Prop :=
  e.fd ≠ listening ∧ e.events &&& epollIn ≠ 0

instance (listening : Int) (e : Event) : Decidable (e.Readable listening) :=
  inferInstanceAs (Decidable (_ ∧ _))

def Event.FailedAccept (listening : Int) (e : Event) : Prop := e.fd = listening ∧ e.accept < 0

def Event.connection (listening : Int) (e : Event) : Option Int :=
  if e.fd = listening ∧ 0 ≤ e.accept then some e.accept else none

def Event.bytes (listening : Int) (e : Event) : Option Bytes :=
  if e.Readable listening then
    match e.recv with
    | .data bytes _ _ => some bytes
    | .closed | .failed => none
  else none

/-- The batch makes just one request of each positive count, of the bytes received; it makes no
other request and no copy out of bounds, and leaves at most the event at hand when it returns. -/
def Exact (s : Server) (es : List Event) : Prop :=
  ∃ ret i s', processEvent s es = .returned ret i s' ∧ es.length ≤ i + 1 ∧
    s'.connections = s.connections ++ es.filterMap (Event.connection s.serversocket) ∧
    ∃ rqs, s'.received = s.received ++ rqs ∧
      List.Forall₂ Holds rqs (es.filterMap (Event.bytes s.serversocket))

/-! ### One round -/

variable {s s' t : Server} {e : Event} {es : List Event}

/-- The bytes at the front of the buffer make a request. -/
theorem inputBuffer_front {pbuff bytes : Bytes} (h : pbuff.take bytes.length = bytes)
    (hle : bytes.length ≤ pbuffSize) :
    ∃ n rq, inputBuffer .new (some pbuff) bytes.length = .ok (n, rq) ∧ Holds rq bytes := by
  have hlen : bytes.length ≤ pbuff.length := by
    have := congrArg List.length h
    rw [List.length_take] at this
    omega
  let i : Input := ⟨some pbuff, bytes.length, fun v hv => (Option.some.inj hv) ▸ hlen⟩
  have hbytes : i.bytes = bytes := h
  unfold pbuffSize at hle
  obtain ⟨n, rq, hrun, hsteady⟩ := Steady.new.inputBuffer i
    (by rw [hbytes, List.length_nil]; omega)
    (by rw [hbytes, List.length_nil, LosesMegabyte]; omega)
  rw [hbytes] at hsteady
  exact ⟨n, rq, hrun, hsteady.toHolds⟩

theorem inputBuffer_negative (pbuff : Bytes) :
    inputBuffer .new (some pbuff) (-1) = .error .memcpyOutside := rfl

/-- A round has passed on connections and bytes. -/
structure Advances (s : Server) (connections : List Int) (received : List Bytes)
    (t : Server) : Prop where
  serversocket : t.serversocket = s.serversocket
  connections : t.connections = s.connections ++ connections
  received : ∃ rqs, t.received = s.received ++ rqs ∧ List.Forall₂ Holds rqs received

theorem Advances.refl (s : Server) : Advances s [] [] s :=
  ⟨rfl, (List.append_nil _).symm, [], (List.append_nil _).symm, .nil⟩

theorem Advances.trans {c c' : List Int} {b b' : List Bytes} (h : Advances s c b t)
    (h' : Advances t c' b' s') : Advances s (c ++ c') (b ++ b') s' := by
  obtain ⟨rqs, hr, hb⟩ := h.received
  obtain ⟨rqs', hr', hb'⟩ := h'.received
  refine ⟨h'.serversocket.trans h.serversocket, ?_, rqs ++ rqs', ?_, List.rel_append hb hb'⟩
  · rw [h'.connections, h.connections, List.append_assoc]
  · rw [hr', hr, List.append_assoc]

/-- What the bytes of a `recv` that does not fail become. -/
def Recv.taken : Recv → Option Bytes
  | .data bytes _ _ => some bytes
  | .closed => some []
  | .failed => none

/-- All that a round can do. -/
theorem handleEvent_cases (s : Server) (e : Event) :
    (e.FailedAccept s.serversocket ∧ handleEvent s e = .ret e.accept s) ∨
    (¬ e.FailedAccept s.serversocket ∧ ¬ e.Readable s.serversocket ∧
      ∃ t, handleEvent s e = .next t ∧
        Advances s (e.connection s.serversocket).toList [] t) ∨
    (e.Readable s.serversocket ∧ ∃ bytes t, e.recv.taken = some bytes ∧
      handleEvent s e = .next t ∧ Advances s [] [bytes] t) ∨
    (e.Readable s.serversocket ∧ e.recv.taken = none ∧
      handleEvent s e = .fault .memcpyOutside s) := by
  by_cases hfd : e.fd = s.serversocket
  · have hread : ¬ e.Readable s.serversocket := fun h => h.1 hfd
    by_cases hacc : e.accept < 0
    · exact .inl ⟨⟨hfd, hacc⟩, by rw [handleEvent, if_pos hfd, if_pos hacc]⟩
    · refine .inr (.inl ⟨fun h => hacc h.2, hread, s.addFd e.accept, ?_, rfl, ?_, ?_⟩)
      · rw [handleEvent, if_pos hfd, if_neg hacc]
      · rw [Event.connection, if_pos ⟨hfd, by omega⟩]
        rfl
      · exact (Advances.refl s).received
  have hconn : ¬ e.FailedAccept s.serversocket := fun h => hfd h.1
  by_cases hin : e.events &&& epollIn ≠ 0
  · -- a request of what is at the front of the buffer
    have hmade (bytes : Bytes) (u : Server) (hu : Advances s [] [] u)
        (hfront : u.pbuff.take bytes.length = bytes) (hle : bytes.length ≤ pbuffSize)
        (hrun : readBuff s e.recv = ((bytes.length : Int), u)) :
        ∃ t, handleEvent s e = .next t ∧ Advances s [] [bytes] t := by
      obtain ⟨n, rq, hrq, hholds⟩ := inputBuffer_front hfront hle
      refine ⟨u.receiveRecord rq, ?_, ?_⟩
      · rw [handleEvent, if_neg hfd, if_pos hin, hrun]
        dsimp only
        rw [hrq]
      · exact hu.trans ⟨rfl, (List.append_nil _).symm, [rq], rfl, .cons hholds .nil⟩
    refine .inr (.inr ?_)
    cases hrecv : e.recv with
    | data bytes hne hle =>
        refine .inl ⟨⟨hfd, hin⟩, bytes, ?_⟩
        obtain ⟨t, ht⟩ := hmade bytes
          { s with pbuff := patch s.pbuff 0 bytes, size := length_filled s.size hle }
          ⟨rfl, (List.append_nil _).symm, [], (List.append_nil _).symm, .nil⟩ List.take_left hle
          (by rw [hrecv]; rfl)
        exact ⟨t, rfl, ht⟩
    | closed =>
        refine .inl ⟨⟨hfd, hin⟩, [], ?_⟩
        obtain ⟨t, ht⟩ := hmade [] s (.refl s) List.take_zero (Nat.zero_le _) (by rw [hrecv]; rfl)
        exact ⟨t, rfl, ht⟩
    | failed =>
        refine .inr ⟨⟨hfd, hin⟩, rfl, ?_⟩
        rw [handleEvent, if_neg hfd, if_pos hin, hrecv, readBuff]
        dsimp only
        rw [inputBuffer_negative]
  · refine .inr (.inl ⟨hconn, fun h => hin h.2, s, ?_, ?_⟩)
    · rw [handleEvent, if_neg hfd, if_neg hin, ite_self]
    · rw [Event.connection, if_neg (fun h => hfd h.1)]
      exact .refl s

/-! ### Whole batches -/

theorem processFrom_next {i : ℕ} (h : handleEvent s e = .next t) :
    processFrom s i (e :: es) = processFrom t (i + 1) es := by
  rw [processFrom, h]

theorem connection_of_failedAccept {listening : Int} (h : e.FailedAccept listening) :
    e.connection listening = none :=
  if_neg fun hc => absurd hc.2 (by have := h.2; omega)

theorem connection_of_readable {listening : Int} (h : e.Readable listening) :
    e.connection listening = none :=
  if_neg fun hc => h.1 hc.1

theorem bytes_of_not_readable {listening : Int} (h : ¬ e.Readable listening) :
    e.bytes listening = none := if_neg h

theorem not_readable_of_failedAccept {listening : Int} (h : e.FailedAccept listening) :
    ¬ e.Readable listening := fun hr => hr.1 h.1

/-- A positive count for each connection that can be read. -/
def Delivers (listening : Int) (e : Event) : Prop :=
  e.Readable listening → (e.bytes listening).isSome = true

theorem bytes_of_delivers {listening : Int} {bytes : Bytes} (hr : e.Readable listening)
    (hd : Delivers listening e) (ht : e.recv.taken = some bytes) :
    e.bytes listening = some bytes := by
  have hsome := hd hr
  rw [Event.bytes, if_pos hr] at hsome ⊢
  cases hrecv : e.recv with
  | data b hne hle =>
      rw [hrecv] at ht
      exact ht
  | closed | failed =>
      rw [hrecv] at hsome
      exact nomatch hsome

theorem filterMap_cons_toList {α β : Type} (f : α → Option β) (a : α) (l : List α) :
    (a :: l).filterMap f = (f a).toList ++ l.filterMap f := by
  cases h : f a with
  | none => rw [List.filterMap_cons_none h, Option.toList_none, List.nil_append]
  | some b => rw [List.filterMap_cons_some h, Option.toList_some, List.singleton_append]

/-- A batch of positive counts in which at most the last `accept` fails. -/
theorem processFrom_exact (es : List Event) (s : Server) (i : ℕ)
    (hd : ∀ e ∈ es, Delivers s.serversocket e)
    (ha : ∀ e ∈ es.dropLast, ¬ e.FailedAccept s.serversocket) :
    ∃ ret j t, processFrom s i es = .returned ret j t ∧ i + es.length ≤ j + 1 ∧
      Advances s (es.filterMap (Event.connection s.serversocket))
        (es.filterMap (Event.bytes s.serversocket)) t := by
  induction es generalizing s i with
  | nil => exact ⟨0, i, s, rfl, Nat.le_succ i, .refl s⟩
  | cons e es ih =>
      rw [filterMap_cons_toList, filterMap_cons_toList]
      have hgo {t : Server} (hnext : handleEvent s e = .next t) (hadv : Advances s
          (e.connection s.serversocket).toList (e.bytes s.serversocket).toList t) :
          ∃ ret j u, processFrom s i (e :: es) = .returned ret j u ∧
            i + (e :: es).length ≤ j + 1 ∧ Advances s
              ((e.connection s.serversocket).toList ++
                es.filterMap (Event.connection s.serversocket))
              ((e.bytes s.serversocket).toList ++ es.filterMap (Event.bytes s.serversocket)) u := by
        have hsock := hadv.serversocket
        obtain ⟨ret, j, u, hrun, hj, hu⟩ := ih t (i + 1)
          (fun e' he' => hsock ▸ hd e' (List.mem_cons_of_mem e he'))
          (fun e' he' => hsock ▸ ha e' (by
            rw [List.dropLast_cons_of_ne_nil (List.ne_nil_of_mem (List.mem_of_mem_dropLast he'))]
            exact List.mem_cons_of_mem e he'))
        rw [hsock] at hu
        refine ⟨ret, j, u, (processFrom_next hnext).trans hrun, ?_, hadv.trans hu⟩
        rw [List.length_cons]
        omega
      rcases handleEvent_cases s e with ⟨hfail, hret⟩ | ⟨-, hread, t, hnext, hadv⟩ |
        ⟨hread, bytes, t, htaken, hnext, hadv⟩ | ⟨hread, htaken, -⟩
      · -- the batch ends here, so this is its last event
        obtain rfl : es = [] := by
          by_contra hne
          exact ha e (by rw [List.dropLast_cons_of_ne_nil hne]; exact List.mem_cons_self) hfail
        refine ⟨e.accept, i, s, by rw [processFrom, hret], Nat.le_refl _, ?_⟩
        rw [connection_of_failedAccept hfail,
          bytes_of_not_readable (not_readable_of_failedAccept hfail)]
        exact .refl s
      · apply hgo hnext
        rwa [bytes_of_not_readable hread]
      · apply hgo hnext
        rw [connection_of_readable hread, bytes_of_delivers hread (hd e List.mem_cons_self) htaken]
        exact hadv
      · have hsome := hd e List.mem_cons_self hread
        rw [Event.bytes, if_pos hread] at hsome
        cases hrecv : e.recv with
        | data b hne hle =>
            rw [hrecv] at htaken
            exact nomatch htaken
        | closed | failed =>
            rw [hrecv] at hsome
            exact nomatch hsome

/-- A batch that leaves nothing behind has made a request for each connection that can be read. -/
theorem processFrom_returned (es : List Event) (s : Server) (i : ℕ) {ret : Int} {j : ℕ}
    (hrun : processFrom s i es = .returned ret j t) (hj : i + es.length ≤ j + 1) :
    (∀ e ∈ es.dropLast, ¬ e.FailedAccept s.serversocket) ∧
      t.received.length = s.received.length + es.countP (Event.Readable s.serversocket ·) := by
  induction es generalizing s i with
  | nil =>
      obtain ⟨-, -, rfl⟩ := Batch.returned.inj hrun
      exact ⟨nofun, rfl⟩
  | cons e es ih =>
      have hgo {u : Server} {c : List Int} {b : List Bytes} (hnext : handleEvent s e = .next u)
          (hadv : Advances s c b u) (hfail : ¬ e.FailedAccept s.serversocket) :
          (∀ e' ∈ (e :: es).dropLast, ¬ e'.FailedAccept s.serversocket) ∧
            t.received.length = s.received.length + b.length +
              es.countP (Event.Readable s.serversocket ·) := by
        rw [processFrom_next hnext] at hrun
        rw [List.length_cons] at hj
        have hrest := ih u (i + 1) hrun (by omega)
        rw [hadv.serversocket] at hrest
        obtain ⟨rqs, hrqs, hholds⟩ := hadv.received
        rw [hrqs, List.length_append, hholds.length_eq] at hrest
        refine ⟨?_, hrest.2⟩
        cases es with
        | nil => exact nofun
        | cons e' es =>
            rw [List.dropLast_cons_of_ne_nil (List.cons_ne_nil e' es), List.forall_mem_cons]
            exact ⟨hfail, hrest.1⟩
      rcases handleEvent_cases s e with ⟨hfail, hret⟩ | ⟨hfail, hread, u, hnext, hadv⟩ |
        ⟨hread, bytes, u, htaken, hnext, hadv⟩ | ⟨hread, htaken, hfault⟩
      · rw [processFrom, hret] at hrun
        obtain ⟨-, rfl, rfl⟩ := Batch.returned.inj hrun
        obtain rfl : es = [] := List.length_eq_zero_iff.mp (by rw [List.length_cons] at hj; omega)
        refine ⟨nofun, ?_⟩
        rw [List.countP_cons_of_neg (by simpa using not_readable_of_failedAccept hfail)]
        rfl
      · rw [List.countP_cons_of_neg (by simpa using hread)]
        exact hgo hnext hadv hfail
      · have hrest := hgo hnext hadv fun h => not_readable_of_failedAccept h hread
        rw [List.countP_cons_of_pos (by simpa using hread)]
        rw [List.length_singleton] at hrest
        exact ⟨hrest.1, by omega⟩
      · rw [processFrom, hfault] at hrun
        exact nomatch hrun

/-- Fewer byte strings than connections to read, unless each of these has a positive count. -/
theorem delivers_of_length (listening : Int) (es : List Event)
    (h : es.countP (Event.Readable listening ·) ≤ (es.filterMap (Event.bytes listening)).length) :
    ∀ e ∈ es, Delivers listening e := by
  have hle (l : List Event) :
      (l.filterMap (Event.bytes listening)).length ≤ l.countP (Event.Readable listening ·) := by
    rw [List.length_filterMap_eq_countP]
    apply List.countP_mono_left
    intro e _ hsome
    by_contra hread
    rw [bytes_of_not_readable (by simpa using hread)] at hsome
    exact nomatch hsome
  induction es with
  | nil => exact nofun
  | cons e es ih =>
      have htail := hle es
      rw [filterMap_cons_toList, List.length_append] at h
      by_cases hread : e.Readable listening
      · rw [List.countP_cons_of_pos (by simpa using hread)] at h
        cases hb : e.bytes listening with
        | none =>
            rw [hb, Option.toList_none, List.length_nil] at h
            omega
        | some b =>
            rw [hb, Option.toList_some, List.length_singleton] at h
            rw [List.forall_mem_cons]
            exact ⟨fun _ => by rw [hb]; rfl, ih (by omega)⟩
      · rw [List.countP_cons_of_neg (by simpa using hread), bytes_of_not_readable hread,
          Option.toList_none, List.length_nil, Nat.zero_add] at h
        rw [List.forall_mem_cons]
        exact ⟨fun hr => absurd hr hread, ih h⟩

/-- A batch is handled exactly just if each connection that can be read gives a positive count and
no `accept` but that of the last event fails. -/
theorem processEvent_exact_iff (s : Server) (es : List Event) :
    Exact s es ↔
      (∀ e ∈ es, e.fd ≠ s.serversocket → e.events &&& epollIn ≠ 0 →
        e.recv ≠ .closed ∧ e.recv ≠ .failed) ∧
      ∀ e ∈ es.dropLast, e.fd = s.serversocket → 0 ≤ e.accept := by
  have hdelivers (e : Event) : Delivers s.serversocket e ↔ (e.fd ≠ s.serversocket →
      e.events &&& epollIn ≠ 0 → e.recv ≠ .closed ∧ e.recv ≠ .failed) := by
    rw [← and_imp]
    refine forall_congr' fun hr => ?_
    rw [Event.bytes, if_pos hr]
    cases e.recv with
    | data b hne hle => exact iff_of_true rfl ⟨nofun, nofun⟩
    | closed => exact iff_of_false nofun fun h => h.1 rfl
    | failed => exact iff_of_false nofun fun h => h.2 rfl
  have haccept (e : Event) : ¬ e.FailedAccept s.serversocket ↔
      (e.fd = s.serversocket → 0 ≤ e.accept) := by
    rw [Event.FailedAccept, not_and, not_lt]
  simp only [← hdelivers, ← haccept]
  constructor
  · rintro ⟨ret, j, t, hrun, hj, -, rqs, hrqs, hholds⟩
    obtain ⟨hnot, hlen⟩ := processFrom_returned es s 0 hrun (by omega)
    refine ⟨delivers_of_length s.serversocket es ?_, hnot⟩
    rw [hrqs, List.length_append, hholds.length_eq] at hlen
    omega
  · rintro ⟨hd, ha⟩
    obtain ⟨ret, j, t, hrun, hj, hadv⟩ := processFrom_exact es s 0 hd ha
    exact ⟨ret, j, t, hrun, by omega, hadv.connections, hadv.received⟩

def listeningServer : Server where
  serversocket := 3
  pbuff := List.replicate pbuffSize 0
  size := List.length_replicate
  connections := []
  received := []

def twoBytes : Event := ⟨4, epollIn, 0, .data [1, 2] nofun (by decide)⟩

/-- A closed connection makes a request of no bytes, a failed one a copy out of bounds, and after a
failed `accept` the two bytes of another connection are not read. -/
theorem processEvent_inexact :
    (∃ t rq, processEvent listeningServer [⟨4, epollIn, 0, .closed⟩] = .returned 0 1 t ∧
        t.received = [rq] ∧ rq.buffernLength = 0) ∧
      processEvent listeningServer [⟨4, epollIn, 0, .failed⟩] =
        .fault .memcpyOutside 0 listeningServer ∧
      processEvent listeningServer [⟨3, epollIn, -1, .closed⟩, twoBytes] =
        .returned (-1) 0 listeningServer :=
  ⟨⟨_, _, rfl, rfl, rfl⟩, rfl, rfl⟩

end Hatch.Dir
