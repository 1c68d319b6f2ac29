import Hatch.NetSystem

/-!
# Messages on the way between two parties

`pipe p q` lists the messages on the way from `p` to `q`, oldest first, as `q` will
see them: those in its receive queue, the datagrams in flight, and those waiting in
the send queue of `p`. The threads that move messages do not change a pipe; sending
appends to it and handling takes its first message.
-/

namespace Hatch.Net

open ByteLayout FaultProgram Prog TransitionSystem

section Queue

variable {q r : MsgQueue} {m : Bytes}

theorem MsgQueue.pop_eq_some (h : q.pop = some (m, r)) :
    q.list = m :: r.list ∧ r.refused = q.refused := by
  unfold pop at h
  split at h
  · rename_i n m' rest hs hl
    cases h
    exact ⟨hl, rfl⟩
  · cases h

/-- What a full queue refuses is lost; without a refusal everything is queued. -/
theorem MsgQueue.pushAll_list (q : MsgQueue) (ms : List Bytes) :
    ∃ sent, sent.Sublist ms ∧ (q.pushAll ms).list = q.list ++ sent ∧
      ((q.pushAll ms).refused = 0 → sent = ms) := by
  rw [pushAll_eq]
  refine ⟨ms.take (netMessageListMaxLength - q.sem), List.take_sublist _ _, rfl, ?_⟩
  intro hrefused
  have hrefused : q.refused + (ms.length - (netMessageListMaxLength - q.sem)) = 0 := hrefused
  exact List.take_of_length_le (by omega)

end Queue

def arrived (e : Endpoint) (l : List Bytes) : List Bytes :=
  l.filter (fun b => (msgFromAddr b).endpoint = e)

/-- The datagrams in flight from `e` to `e'`, as they will be received. -/
def flying (e e' : Endpoint) (net : List Datagram) : List Bytes :=
  (net.filter (fun d => d.src = e ∧ d.dst = e')).map (fun d => recvMsg (sockAddr d.src) d.payload)

/-- The messages that `e` is going to send to `e'`, as they will be received. -/
def waiting (e e' : Endpoint) (l : List Bytes) : List Bytes :=
  (l.filter (fun b => (msgFromAddr b).endpoint = e')).map (fun b => recvMsg (sockAddr e) (wireOf b))

variable {ι : Type}

def System.recv (s : System ι) (p : Option ι) : List Bytes := (s.proc p).recvList.list

def System.send (s : System ι) (p : Option ι) : List Bytes := (s.proc p).sendList.list

def pipeOf (cfg : Config ι) (recv send : Option ι → List Bytes) (net : List Datagram)
    (p q : Option ι) : List Bytes :=
  arrived (cfg.socket p) (recv q) ++ flying (cfg.socket p) (cfg.socket q) net ++
    waiting (cfg.socket p) (cfg.socket q) (send p)

def System.pipe (cfg : Config ι) (s : System ι) : Option ι → Option ι → List Bytes :=
  pipeOf cfg s.recv s.send s.net

theorem Config.socket_injective (cfg : Config ι) : Function.Injective cfg.socket := by
  intro p q h
  match p, q with
  | none, none => rfl
  | none, some c => exact absurd h.symm (cfg.endpoint_ne_server c)
  | some c, none => exact absurd h (cfg.endpoint_ne_server c)
  | some c, some d => exact congrArg some (cfg.endpoint_injective h)

section Parts

variable {e e' : Endpoint} {l l' : List Bytes} {net : List Datagram} {b d : Bytes}

theorem arrived_append : arrived e (l ++ l') = arrived e l ++ arrived e l' := List.filter_append ..

theorem arrived_cons : arrived e (b :: l) =
    (if (msgFromAddr b).endpoint = e then [b] else []) ++ arrived e l := by
  by_cases h : (msgFromAddr b).endpoint = e
  · simp [arrived, h]
  · simp [arrived, h]

theorem waiting_append : waiting e e' (l ++ l') = waiting e e' l ++ waiting e e' l' := by
  simp [waiting]

theorem waiting_cons : waiting e e' (b :: l) =
    (if (msgFromAddr b).endpoint = e' then [recvMsg (sockAddr e) (wireOf b)] else []) ++
      waiting e e' l := by
  by_cases h : (msgFromAddr b).endpoint = e'
  · simp [waiting, h]
  · simp [waiting, h]

theorem flying_append {net' : List Datagram} :
    flying e e' (net ++ net') = flying e e' net ++ flying e e' net' := by
  simp [flying]

theorem flying_singleton {f f' : Endpoint} : flying e e' [⟨f, f', d⟩] =
    if f = e ∧ f' = e' then [recvMsg (sockAddr f) d] else [] := by
  by_cases h : f = e ∧ f' = e'
  · simp [flying, h]
  · simp [flying, h]

theorem arrived_recvMsg {f : Endpoint} : arrived e [recvMsg (sockAddr f) d] =
    if f = e then [recvMsg (sockAddr f) d] else [] := by
  rw [arrived_cons, msgFromAddr_recvMsg]
  exact List.append_nil _

end Parts

theorem net_split {l : List Datagram} {i : ℕ} {d : Datagram} (hd : l[i]? = some d) :
    l = l.take i ++ d :: l.drop (i + 1) ∧ l.eraseIdx i = l.take i ++ l.drop (i + 1) := by
  obtain ⟨hi, rfl⟩ := List.getElem?_eq_some_iff.mp hd
  exact ⟨by simp, List.eraseIdx_eq_take_drop_succ ..⟩

section Moves

variable [DecidableEq ι] {cfg : Config ι} {recv send : Option ι → List Bytes} {net : List Datagram}
  {p : Option ι} {b : Bytes} {rest : List Bytes}

theorem pipeOf_send (ms : List Bytes) (x y : Option ι) :
    pipeOf cfg recv (Function.update send p (send p ++ ms)) net x y =
      pipeOf cfg recv send net x y ++
        if x = p then waiting (cfg.socket p) (cfg.socket y) ms else [] := by
  by_cases hx : x = p
  · subst hx
    simp [pipeOf, waiting_append]
  · simp [pipeOf, hx]

theorem pipeOf_pop (hb : recv p = b :: rest) (x y : Option ι) :
    pipeOf cfg recv send net x y =
      (if y = p ∧ (msgFromAddr b).endpoint = cfg.socket x then [b] else []) ++
        pipeOf cfg (Function.update recv p rest) send net x y := by
  by_cases hy : y = p
  · subst hy
    simp [pipeOf, hb, arrived_cons]
  · simp [pipeOf, hy]

theorem pipeOf_transmit (hb : send p = b :: rest) (x y : Option ι) :
    pipeOf cfg recv (Function.update send p rest)
        (net ++ [⟨cfg.socket p, (msgFromAddr b).endpoint, wireOf b⟩]) x y =
      pipeOf cfg recv send net x y := by
  by_cases hx : x = p
  · subst hx
    simp [pipeOf, flying_append, flying_singleton, hb, waiting_cons]
  · have hne : cfg.socket p ≠ cfg.socket x := fun h => hx (cfg.socket_injective h).symm
    simp [pipeOf, flying_append, flying_singleton, hx, hne]

/-- Delivery out of order permutes a pipe, delivery in order leaves it. -/
theorem pipeOf_deliver {l l' : List Datagram} {d : Datagram} (hd : d.dst = cfg.socket p)
    (x y : Option ι) :
    (pipeOf cfg (Function.update recv p (recv p ++ [recvMsg (sockAddr d.src) d.payload])) send
        (l ++ l') x y).Perm (pipeOf cfg recv send (l ++ d :: l') x y) ∧
      ((∀ e ∈ l, ¬ (e.src = d.src ∧ e.dst = d.dst)) →
        pipeOf cfg (Function.update recv p (recv p ++ [recvMsg (sockAddr d.src) d.payload])) send
          (l ++ l') x y = pipeOf cfg recv send (l ++ d :: l') x y) := by
  have hsplit : flying (cfg.socket x) (cfg.socket y) (l ++ d :: l') =
      flying (cfg.socket x) (cfg.socket y) l ++
        (if d.src = cfg.socket x ∧ y = p then [recvMsg (sockAddr d.src) d.payload] else []) ++
        flying (cfg.socket x) (cfg.socket y) l' := by
    have hy : d.dst = cfg.socket y ↔ y = p := by
      rw [hd]
      exact ⟨fun h => (cfg.socket_injective h).symm, fun h => by rw [h]⟩
    rw [← List.singleton_append, flying_append, flying_append, flying_singleton]
    simp only [hy, List.append_assoc]
  by_cases hyp : y = p ∧ d.src = cfg.socket x
  · obtain ⟨rfl, hx⟩ := hyp
    have hnew : pipeOf cfg (Function.update recv y (recv y ++
        [recvMsg (sockAddr d.src) d.payload])) send (l ++ l') x y =
        arrived (cfg.socket x) (recv y) ++ ([recvMsg (sockAddr d.src) d.payload] ++
          flying (cfg.socket x) (cfg.socket y) l) ++ flying (cfg.socket x) (cfg.socket y) l' ++
          waiting (cfg.socket x) (cfg.socket y) (send x) := by
      simp [pipeOf, flying_append, arrived_append, arrived_recvMsg, hx]
    have hold : pipeOf cfg recv send (l ++ d :: l') x y =
        arrived (cfg.socket x) (recv y) ++ (flying (cfg.socket x) (cfg.socket y) l ++
          [recvMsg (sockAddr d.src) d.payload]) ++ flying (cfg.socket x) (cfg.socket y) l' ++
          waiting (cfg.socket x) (cfg.socket y) (send x) := by
      simp [pipeOf, hsplit, hx]
    rw [hnew, hold]
    refine ⟨((List.perm_append_comm.append_left _).append_right _).append_right _, fun hl => ?_⟩
    have hnil : flying (cfg.socket x) (cfg.socket y) l = [] := by
      simpa [flying, ← hx, ← hd] using hl
    rw [hnil]
    rfl
  · have hif : ¬ (d.src = cfg.socket x ∧ y = p) := fun h => hyp ⟨h.2, h.1⟩
    have hsame : pipeOf cfg (Function.update recv p (recv p ++
        [recvMsg (sockAddr d.src) d.payload])) send (l ++ l') x y =
        pipeOf cfg recv send (l ++ d :: l') x y := by
      by_cases hy : y = p
      · subst hy
        have hx : d.src ≠ cfg.socket x := fun h => hyp ⟨rfl, h⟩
        simp [pipeOf, hsplit, flying_append, arrived_append, arrived_recvMsg, hx]
      · simp [pipeOf, hsplit, flying_append, hy]
    exact ⟨hsame ▸ .refl _, fun _ => hsame⟩

omit [DecidableEq ι] in
theorem pipeOf_lose {l l' : List Datagram} {d : Datagram} (x y : Option ι) :
    (pipeOf cfg recv send (l ++ l') x y).Sublist (pipeOf cfg recv send (l ++ d :: l') x y) := by
  have hf : (flying (cfg.socket x) (cfg.socket y) (l ++ l')).Sublist
      (flying (cfg.socket x) (cfg.socket y) (l ++ d :: l')) :=
    ((List.Sublist.append_left (List.sublist_cons_self d l') l).filter _).map _
  exact (hf.append_left _).append_right _

omit [DecidableEq ι] in
theorem pipeOf_lose_of_ne {l l' : List Datagram} {d : Datagram} {q : Option ι}
    (hq : d.dst = cfg.socket q) (x : Option ι) {y : Option ι} (hy : y ≠ q) :
    pipeOf cfg recv send (l ++ l') x y = pipeOf cfg recv send (l ++ d :: l') x y := by
  have hne : ¬ (d.src = cfg.socket x ∧ d.dst = cfg.socket y) := by
    rintro ⟨-, h⟩
    exact hy (cfg.socket_injective (h.symm.trans hq))
  rw [pipeOf, pipeOf, flying_append, ← List.singleton_append, flying_append, flying_append,
    flying_singleton, if_neg hne, List.nil_append]

end Moves

end Hatch.Net
