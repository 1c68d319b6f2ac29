import Hatch.Inevitability
import Hatch.NetRunners

/-!
# What the runners have done when they return

A runner that waits on a semaphore and on the end event returns only when the semaphore is 0,
so everything its list had accepted by then has been worked off. The workers take the runners in
the order of the pushes, each once, and `hatchMain` returns after all of them. It follows that a
client that is closed by its user has sent its Logout, and all it had queued before, when
`hatchMain` returns. Only a handler that sets the end event can make a worker use `Textrun` after
its lifetime.
-/

namespace Hatch.Net

open ByteLayout TransitionSystem ThreadCount

/-- A list with one consumer, which is `awake` between its wait and its pop and has `hand` in
hand after that. -/
structure Drains (q : MsgQueue) (awake : ℕ) (hand queued finished : List Bytes) : Prop where
  balanced : q.list.length = q.sem + awake
  conserved : queued = finished ++ hand ++ q.list

section Drains

variable {q : MsgQueue} {n : ℕ} {hand queued finished l : List Bytes} {m : Bytes}

theorem Drains.push (h : Drains q n hand queued finished) (m : Bytes) :
    Drains (q.push m).2 n hand (queued ++ q.accepted m) finished := by
  have hb := h.balanced
  have hc := h.conserved
  by_cases hq : q.sem < netMessageListMaxLength
  · rw [MsgQueue.push_of_lt hq, MsgQueue.accepted, if_pos hq]
    refine ⟨?_, ?_⟩
    · simp only [List.length_append, List.length_singleton]
      omega
    · simp only [hc, List.append_assoc]
  · rw [MsgQueue.push_of_not_lt hq, MsgQueue.accepted, if_neg hq, List.append_nil]
    exact ⟨hb, hc⟩

theorem Drains.wait (h : Drains q 0 hand queued finished) (hn : 0 < q.sem) :
    Drains q.wait 1 hand queued finished := by
  refine ⟨?_, h.conserved⟩
  have hb := h.balanced
  simp only [MsgQueue.wait]
  omega

theorem Drains.pop (h : Drains q 1 [] queued finished) (hl : q.list = m :: l) :
    Drains { q with list := l } 0 [m] queued finished := by
  refine ⟨?_, ?_⟩
  · have hb := h.balanced
    rw [hl, List.length_cons] at hb
    simp only
    omega
  · rw [h.conserved, hl]
    simp

theorem Drains.finish (h : Drains q 0 [m] queued finished) :
    Drains q 0 [] queued (finished ++ [m]) :=
  ⟨h.balanced, by rw [h.conserved, List.append_nil]⟩

theorem Drains.exists_cons (h : Drains q 1 hand queued finished) :
    ∃ m l, q.list = m :: l := by
  have hb := h.balanced
  exact List.exists_cons_of_length_pos (by omega)

/-- With the semaphore at 0 and nothing in hand all is done. -/
theorem Drains.drained (h : Drains q 0 [] queued finished) (hn : q.sem = 0) :
    queued = finished := by
  have hb := h.balanced
  have hl : q.list = [] := List.eq_nil_of_length_eq_zero (by omega)
  rw [h.conserved, hl, List.append_nil, List.append_nil]

end Drains

variable {T : Type}

def Status.holder {P : Type} : Status T P → Option T
  | .running t _ => some t
  | .created | .returned => none

def Status.begun {P : Type} : Status T P → Bool
  | .created => false
  | .running .. | .returned => true

def sendAwake : Status T SendStage → ℕ
  | .running _ .woken => 1
  | _ => 0

def sendHand : Status T SendStage → List Bytes
  | .running _ (.sending m) => [m]
  | _ => []

def recvAwake : Status T PacketStage → ℕ
  | .running _ .wokenRecv => 1
  | _ => 0

def recvHand : Status T PacketStage → List Bytes
  | .running _ (.handlingRecv m) => [m]
  | _ => []

def tempAwake : Status T PacketStage → ℕ
  | .running _ .wokenTemp => 1
  | _ => 0

def tempHand : Status T PacketStage → List Bytes
  | .running _ (.handlingTemp m) => [m]
  | _ => []

structure ListsInv (s : App T) : Prop where
  send : Drains s.sendList (sendAwake s.send) (sendHand s.send) s.queued s.sent
  recv : Drains s.recvList (recvAwake s.packet) (recvHand s.packet) s.recvQueued s.recvHandled
  temp : Drains s.tempList (tempAwake s.packet) (tempHand s.packet) s.tempQueued s.tempHandled

variable [DecidableEq T] {s u : App T}

theorem RecvChange.lists (h : RecvChange s u) (hi : ListsInv s) : ListsInv u := by
  cases h with
  | move | finish => exact ⟨hi.send, hi.recv, hi.temp⟩
  | push t m h => exact ⟨hi.send, hi.recv.push m, hi.temp⟩

theorem SendChange.lists (h : SendChange s u) (hi : ListsInv s) : ListsInv u := by
  have hs := hi.send
  cases h with
  | wait t h hn =>
      rw [h] at hs
      exact ⟨hs.wait hn, hi.recv, hi.temp⟩
  | finish t h hn he =>
      rw [h] at hs
      exact ⟨hs, hi.recv, hi.temp⟩
  | pop t m l h hl =>
      rw [h] at hs
      exact ⟨hs.pop hl, hi.recv, hi.temp⟩
  | sent t m h =>
      rw [h] at hs
      exact ⟨hs.finish, hi.recv, hi.temp⟩

omit [DecidableEq T] in
theorem ListsInv.effect (hi : ListsInv s) (e : Effect) : ListsInv (s.effect e) := by
  cases e with
  | send m => exact ⟨hi.send.push m, hi.recv, hi.temp⟩
  | startText | servicesEnd | overLeave => exact ⟨hi.send, hi.recv, hi.temp⟩

theorem PacketChange.lists (h : PacketChange s u) (hi : ListsInv s) : ListsInv u := by
  have hr := hi.recv
  have ht := hi.temp
  cases h with
  | waitRecv t h hn =>
      rw [h] at hr ht
      exact ⟨hi.send, hr.wait hn, ht⟩
  | waitTemp t h hn =>
      rw [h] at hr ht
      exact ⟨hi.send, hr, ht.wait hn⟩
  | finish t h hn hm he =>
      rw [h] at hr ht
      exact ⟨hi.send, hr, ht⟩
  | popRecv t m l h hl =>
      rw [h] at hr ht
      exact ⟨hi.send, hr.pop hl, ht⟩
  | popTemp t m l h hl =>
      rw [h] at hr ht
      exact ⟨hi.send, hr, ht.pop hl⟩
  | handleRecv t m es h =>
      rw [h] at hr ht
      exact ⟨hi.send, hr.finish, ht⟩
  | handleTemp t m es h =>
      rw [h] at hr ht
      exact ⟨hi.send, hr, ht.finish⟩
  | effect t e es h =>
      have he := hi.effect e
      have hr := he.recv
      have ht := he.temp
      rw [App.effect_packet, h] at hr ht
      exact ⟨he.send, hr, ht⟩
  | handled t h =>
      rw [h] at hr ht
      exact ⟨hi.send, hr, ht⟩
  | block t es h hd =>
      rw [h] at hr ht
      exact ⟨hi.send, hr, ht⟩

theorem TextChange.lists (h : TextChange s u) (hi : ListsInv s) : ListsInv u := by
  cases h with
  | move | finish => exact ⟨hi.send, hi.recv, hi.temp⟩
  | push t m h => exact ⟨hi.send, hi.recv, hi.temp.push m⟩
  | logout t m h => exact ⟨hi.send.push m, hi.recv, hi.temp⟩

/-! The pool: which worker holds which runner, and in which order they are taken. -/

def App.holder (s : App T) : Runner → Option T
  | .recv => s.recv.holder
  | .send => s.send.holder
  | .packet => s.packet.holder
  | .text => s.text.holder

def App.begun (s : App T) : Runner → Bool
  | .recv => s.recv.begun
  | .send => s.send.begun
  | .packet => s.packet.begun
  | .text => s.text.begun

def MainStage.toPush : MainStage → List Runner
  | .pushing rs | .releasing rs => rs
  | _ => []

/-- A runner is stored and not yet announced. -/
def MainStage.ahead : MainStage → Bool
  | .releasing _ => true
  | _ => false

def WorkerStage.awake : WorkerStage → Bool
  | .woken => true
  | _ => false

def Paired (w : T → WorkerStage) (f : Runner → Option T) : Prop :=
  ∀ t r, w t = .running r ↔ f r = some t

section Paired

variable {w : T → WorkerStage} {f g : Runner → Option T} {t : T} {r : Runner} {p : WorkerStage}

theorem Paired.move (h : Paired w f) (hw : ∀ r, w t ≠ .running r) (hp : ∀ r, p ≠ .running r) :
    Paired (Function.update w t p) f := by
  intro t' r'
  by_cases ht : t' = t
  · subst ht
    rw [Function.update_self]
    exact iff_of_false (hp r') (fun hf => hw r' ((h t' r').mpr hf))
  · rw [Function.update_of_ne ht]
    exact h t' r'

theorem Paired.release (h : Paired w f) (hr : f r = some t) (hg : g r = none)
    (hne : ∀ r', r' ≠ r → g r' = f r') (hp : ∀ r, p ≠ .running r) :
    Paired (Function.update w t p) g := by
  intro t' r'
  by_cases he : r' = r
  · subst he
    rw [hg]
    refine iff_of_false ?_ nofun
    by_cases ht : t' = t
    · subst ht
      rw [Function.update_self]
      exact hp r'
    · rw [Function.update_of_ne ht, h t' r', hr]
      exact fun hc => ht (Option.some.inj hc).symm
  · rw [hne r' he]
    by_cases ht : t' = t
    · subst ht
      rw [Function.update_self]
      refine iff_of_false (hp r') ?_
      intro hf
      have hr' := ((h t' r').mpr hf).symm.trans ((h t' r).mpr hr)
      exact he (WorkerStage.running.inj hr')
    · rw [Function.update_of_ne ht]
      exact h t' r'

theorem Paired.assign (h : Paired w f) (hw : ∀ r, w t ≠ .running r) (hr : f r = none)
    (hg : g r = some t) (hne : ∀ r', r' ≠ r → g r' = f r') :
    Paired (Function.update w t (.running r)) g := by
  intro t' r'
  by_cases he : r' = r
  · subst he
    rw [hg]
    by_cases ht : t' = t
    · subst ht
      rw [Function.update_self]
      exact iff_of_true rfl rfl
    · rw [Function.update_of_ne ht, h t' r', hr]
      exact iff_of_false nofun (fun hc => ht (Option.some.inj hc).symm)
  · rw [hne r' he]
    by_cases ht : t' = t
    · subst ht
      rw [Function.update_self]
      exact iff_of_false (fun hc => he (WorkerStage.running.inj hc).symm)
        (fun hf => hw r' ((h t' r').mpr hf))
    · rw [Function.update_of_ne ht]
      exact h t' r'

end Paired

/-- The runners that have been taken, those in the list of the pool and those still to be pushed
are all of them, in their order. -/
def Ordered (servicesType : ℕ) (begun : Runner → Bool) (l rest : List Runner) : Prop :=
  ∃ taken, taken ++ l ++ rest = runners servicesType ∧ ∀ r, r ∈ taken ↔ begun r = true

section Ordered

variable {servicesType : ℕ} {b b' : Runner → Bool} {l rest : List Runner} {r : Runner}

theorem nodup_runners (servicesType : ℕ) : (runners servicesType).Nodup := by
  unfold runners
  split <;> decide

theorem length_runners_le (servicesType : ℕ) : (runners servicesType).length ≤ 4 := by
  unfold runners
  split <;> decide

theorem Ordered.push (h : Ordered servicesType b l (r :: rest)) :
    Ordered servicesType b (l ++ [r]) rest := by
  obtain ⟨taken, ht, hb⟩ := h
  exact ⟨taken, by rw [← ht]; simp, hb⟩

theorem Ordered.head_created (h : Ordered servicesType b (r :: l) rest) : b r = false := by
  obtain ⟨taken, ht, hb⟩ := h
  have hn := nodup_runners servicesType
  rw [← ht, List.append_assoc, List.nodup_append] at hn
  rw [← Bool.not_eq_true, ← hb r]
  exact fun hr => hn.2.2 r hr r (by simp) rfl

theorem Ordered.take (h : Ordered servicesType b (r :: l) rest)
    (hb' : ∀ r', b' r' = true ↔ b r' = true ∨ r' = r) : Ordered servicesType b' l rest := by
  obtain ⟨taken, ht, hb⟩ := h
  refine ⟨taken ++ [r], by rw [← ht]; simp, ?_⟩
  intro r'
  rw [hb', List.mem_append, hb, List.mem_singleton]

theorem Ordered.length_le (h : Ordered servicesType b l rest) : l.length ≤ 4 := by
  obtain ⟨taken, ht, -⟩ := h
  have hl := length_runners_le servicesType
  rw [← ht] at hl
  simp only [List.length_append] at hl
  omega

/-- A worker takes the text runner after all others. -/
theorem Ordered.begun_of_text (h : Ordered servicesType b l rest) (ht : b .text = true)
    (r : Runner) : b r = true := by
  obtain ⟨taken, hl, hb⟩ := h
  have hm := (hb .text).mpr ht
  have hlast : runners servicesType = [.recv, .send, .packet, .text] := by
    have hmem : .text ∈ runners servicesType := by
      rw [← hl, List.append_assoc]
      exact List.mem_append_left _ hm
    unfold runners at hmem ⊢
    split
    · rename_i h0
      rw [if_pos h0] at hmem
      simp at hmem
    · rfl
  rw [hlast, List.append_assoc] at hl
  -- a prefix of the four runners that holds the last of them holds them all
  have hall : taken = [.recv, .send, .packet, .text] := by
    obtain ⟨i, hi, hti⟩ := List.getElem_of_mem hm
    have hgi : ([.recv, .send, .packet, .text] : List Runner)[i]? = some .text := by
      rw [← hl, List.getElem?_append_left hi, List.getElem?_eq_getElem hi, hti]
    have h3 : i = 3 := by
      match i, hgi with
      | 3, _ => rfl
    have hlen := congrArg List.length hl
    simp only [List.length_append, List.length_cons, List.length_nil] at hlen
    have hnil : l ++ rest = [] := List.eq_nil_of_length_eq_zero (by rw [List.length_append]; omega)
    rw [hnil, List.append_nil] at hl
    exact hl
  rw [← hb r, hall]
  cases r <;> simp

end Ordered

/-- Every stored runner is announced by the semaphore, by a woken worker or by `hatchMain`, which
has still to release. -/
structure PoolInv [Fintype T] (servicesType : ℕ) (s : App T) : Prop where
  paired : Paired s.worker s.holder
  ordered : Ordered servicesType s.begun s.listRunner s.main.toPush
  announced : s.listRunner.length =
    s.poolSem + count WorkerStage.awake s.worker + ind s.main.ahead

section PoolInv

variable [Fintype T] {servicesType : ℕ}

/-- The two differ only in what the runner is doing. -/
def Status.Alike {P : Type} (p q : Status T P) : Prop := p.holder = q.holder ∧ p.begun = q.begun

omit [DecidableEq T] [Fintype T] in
theorem Status.Alike.rfl {P : Type} {p : Status T P} : p.Alike p := ⟨Eq.refl _, Eq.refl _⟩

omit [DecidableEq T] [Fintype T] in
theorem Status.Alike.moved {P : Type} {p : Status T P} {t : T} {a b : P} (h : p = .running t a) :
    (Status.running t b).Alike p := by
  rw [h]
  exact ⟨Eq.refl _, Eq.refl _⟩

omit [DecidableEq T] in
/-- Steps inside a runner do not concern the pool. -/
theorem PoolInv.keep (hi : PoolInv servicesType s) (hr : u.recv.Alike s.recv)
    (hs : u.send.Alike s.send) (hp : u.packet.Alike s.packet) (ht : u.text.Alike s.text)
    (hw : u.worker = s.worker) (hl : u.listRunner = s.listRunner) (hm : u.main = s.main)
    (hn : u.poolSem = s.poolSem) : PoolInv servicesType u := by
  have hh : u.holder = s.holder := by
    funext r
    cases r with
    | recv => exact hr.1
    | send => exact hs.1
    | packet => exact hp.1
    | text => exact ht.1
  have hb : u.begun = s.begun := by
    funext r
    cases r with
    | recv => exact hr.2
    | send => exact hs.2
    | packet => exact hp.2
    | text => exact ht.2
  refine ⟨?_, ?_, ?_⟩
  · rw [hw, hh]
    exact hi.paired
  · rw [hb, hl, hm]
    exact hi.ordered
  · rw [hl, hn, hw, hm]
    exact hi.announced

/-- A runner returns and its worker waits again. -/
theorem PoolInv.finish (hi : PoolInv servicesType s) {t : T} {r : Runner}
    (hr : s.holder r = some t) (hg : u.holder r = none)
    (hne : ∀ r', r' ≠ r → u.holder r' = s.holder r') (hb : ∀ r', u.begun r' = s.begun r')
    (hw : u.worker = Function.update s.worker t .waiting)
    (hl : u.listRunner = s.listRunner) (hm : u.main = s.main)
    (hn : u.poolSem = s.poolSem) : PoolInv servicesType u := by
  refine ⟨?_, ?_, ?_⟩
  · rw [hw]
    exact hi.paired.release hr hg hne nofun
  · rw [funext hb, hl, hm]
    exact hi.ordered
  · have hc := count_update WorkerStage.awake s.worker t .waiting
    rw [(hi.paired t r).mpr hr] at hc
    have ha := hi.announced
    rw [hl, hn, hw, hm]
    simp only [WorkerStage.awake, ind_false] at hc
    omega

theorem RecvChange.pool (h : RecvChange s u) (hi : PoolInv servicesType s) :
    PoolInv servicesType u := by
  cases h with
  | move t p q h => exact hi.keep (.moved h) .rfl .rfl .rfl rfl rfl rfl rfl
  | push t m h => exact hi.keep (.moved h) .rfl .rfl .rfl rfl rfl rfl rfl
  | finish t p h =>
      refine hi.finish (r := .recv) (by rw [App.holder, h]; rfl) rfl ?_ ?_ rfl rfl rfl rfl
      · intro r hr
        cases r <;> first | rfl | exact absurd rfl hr
      · intro r
        cases r <;> simp only [App.begun, App.setWorker, h, Status.begun]

theorem SendChange.pool (h : SendChange s u) (hi : PoolInv servicesType s) :
    PoolInv servicesType u := by
  cases h with
  | wait t h => exact hi.keep .rfl (.moved h) .rfl .rfl rfl rfl rfl rfl
  | pop t m l h => exact hi.keep .rfl (.moved h) .rfl .rfl rfl rfl rfl rfl
  | sent t m h => exact hi.keep .rfl (.moved h) .rfl .rfl rfl rfl rfl rfl
  | finish t h hn he =>
      refine hi.finish (r := .send) (by rw [App.holder, h]; rfl) rfl ?_ ?_ rfl rfl rfl rfl
      · intro r hr
        cases r <;> first | rfl | exact absurd rfl hr
      · intro r
        cases r <;> simp only [App.begun, App.setWorker, h, Status.begun]

omit [DecidableEq T] in
theorem PoolInv.effect (hi : PoolInv servicesType s) (e : Effect) :
    PoolInv servicesType (s.effect e) := by
  cases e <;> exact hi.keep .rfl .rfl .rfl .rfl rfl rfl rfl rfl

theorem PacketChange.pool (h : PacketChange s u) (hi : PoolInv servicesType s) :
    PoolInv servicesType u := by
  cases h with
  | waitRecv t h => exact hi.keep .rfl .rfl (.moved h) .rfl rfl rfl rfl rfl
  | waitTemp t h => exact hi.keep .rfl .rfl (.moved h) .rfl rfl rfl rfl rfl
  | popRecv t m l h => exact hi.keep .rfl .rfl (.moved h) .rfl rfl rfl rfl rfl
  | popTemp t m l h => exact hi.keep .rfl .rfl (.moved h) .rfl rfl rfl rfl rfl
  | handleRecv t m es h => exact hi.keep .rfl .rfl (.moved h) .rfl rfl rfl rfl rfl
  | handleTemp t m es h => exact hi.keep .rfl .rfl (.moved h) .rfl rfl rfl rfl rfl
  | handled t h => exact hi.keep .rfl .rfl (.moved h) .rfl rfl rfl rfl rfl
  | block t es h => exact hi.keep .rfl .rfl (.moved h) .rfl rfl rfl rfl rfl
  | effect t e es h =>
      exact (hi.effect e).keep .rfl .rfl (.moved ((App.effect_packet s e).trans h)) .rfl
        rfl rfl rfl rfl
  | finish t h hn hm he =>
      refine hi.finish (r := .packet) (by rw [App.holder, h]; rfl) rfl ?_ ?_ rfl rfl rfl rfl
      · intro r hr
        cases r <;> first | rfl | exact absurd rfl hr
      · intro r
        cases r <;> simp only [App.begun, App.setWorker, h, Status.begun]

theorem TextChange.pool (h : TextChange s u) (hi : PoolInv servicesType s) :
    PoolInv servicesType u := by
  cases h with
  | move t p q h => exact hi.keep .rfl .rfl .rfl (.moved h) rfl rfl rfl rfl
  | push t m h => exact hi.keep .rfl .rfl .rfl (.moved h) rfl rfl rfl rfl
  | logout t m h => exact hi.keep .rfl .rfl .rfl (.moved h) rfl rfl rfl rfl
  | finish t h =>
      refine hi.finish (r := .text) (by rw [App.holder, h]; rfl) rfl ?_ ?_ rfl rfl rfl rfl
      · intro r hr
        cases r <;> first | rfl | exact absurd rfl hr
      · intro r
        cases r <;> simp only [App.begun, App.setWorker, h, Status.begun]

omit [DecidableEq T] [Fintype T] in
theorem Status.holder_of_not_begun {P : Type} {p : Status T P} (h : p.begun = false) :
    p.holder = none := by
  cases p with
  | created => rfl
  | running | returned => cases h

omit [DecidableEq T] [Fintype T] in
theorem App.holder_of_not_begun {r : Runner} (h : s.begun r = false) : s.holder r = none := by
  cases r <;> exact Status.holder_of_not_begun h

omit [Fintype T] in
theorem App.holder_take (s : App T) (t : T) (r : Runner) : (s.take t r).holder r = some t := by
  cases r <;> rfl

omit [Fintype T] in
theorem App.holder_take_of_ne (s : App T) (t : T) {r r' : Runner} (h : r' ≠ r) :
    (s.take t r).holder r' = s.holder r' := by
  cases r <;> cases r' <;> first | rfl | exact absurd rfl h

omit [Fintype T] in
theorem App.begun_take (s : App T) (t : T) (r r' : Runner) :
    (s.take t r).begun r' = true ↔ s.begun r' = true ∨ r' = r := by
  cases r <;> cases r' <;> simp [App.take, App.begun, App.setWorker, Status.begun]

omit [Fintype T] in
@[simp] theorem App.take_worker (s : App T) (t : T) (r : Runner) :
    (s.take t r).worker = Function.update s.worker t (.running r) := by
  cases r <;> rfl

omit [Fintype T] in
@[simp] theorem App.take_listRunner (s : App T) (t : T) (r : Runner) :
    (s.take t r).listRunner = s.listRunner := by
  cases r <;> rfl

omit [Fintype T] in
@[simp] theorem App.take_main (s : App T) (t : T) (r : Runner) : (s.take t r).main = s.main := by
  cases r <;> rfl

omit [Fintype T] in
@[simp] theorem App.take_poolSem (s : App T) (t : T) (r : Runner) :
    (s.take t r).poolSem = s.poolSem := by
  cases r <;> rfl

theorem WorkerChange.pool (h : WorkerChange s u) (hi : PoolInv servicesType s) :
    PoolInv servicesType u := by
  have ha := hi.announced
  cases h with
  | finish t h he =>
      have hc := count_update WorkerStage.awake s.worker t .ended
      refine ⟨hi.paired.move (by rw [h]; nofun) nofun, hi.ordered, ?_⟩
      simp only [h, WorkerStage.awake, ind_false] at hc
      simp only [App.setWorker]
      omega
  | wait t h he hn =>
      have hc := count_update WorkerStage.awake s.worker t .woken
      refine ⟨hi.paired.move (by rw [h]; nofun) nofun, hi.ordered, ?_⟩
      simp only [h, WorkerStage.awake, ind_false, ind_true] at hc
      simp only [App.setWorker]
      omega
  | idle t h hl =>
      -- a woken worker always finds a runner
      have hp : 0 < count WorkerStage.awake s.worker := count_pos (t := t) (by rw [h]; rfl)
      rw [hl, List.length_nil] at ha
      omega
  | take t r rs h hl =>
      have hc := count_update WorkerStage.awake s.worker t (.running r)
      have ho := hi.ordered
      rw [hl] at ho ha
      have hr : s.holder r = none := App.holder_of_not_begun ho.head_created
      refine ⟨?_, ?_, ?_⟩
      · rw [App.take_worker]
        refine hi.paired.assign (by rw [h]; nofun) hr (App.holder_take _ t r) ?_
        intro r' hr'
        exact App.holder_take_of_ne _ t hr'
      · rw [App.take_listRunner, App.take_main]
        exact ho.take (App.begun_take _ t r)
      · rw [App.take_listRunner, App.take_poolSem, App.take_worker, App.take_main]
        simp only [h, WorkerStage.awake, ind_false, ind_true, List.length_cons] at hc ha
        simp only
        omega

omit [DecidableEq T] in
theorem MainChange.pool (h : MainChange servicesType s u) (hi : PoolInv servicesType s) :
    PoolInv servicesType u := by
  have ho := hi.ordered
  have ha := hi.announced
  cases h with
  | push r rs h =>
      rw [h] at ho ha
      refine ⟨hi.paired, ho.push, ?_⟩
      simp only [MainStage.ahead, ind_false, ind_true, List.length_append,
        List.length_singleton] at ha ⊢
      omega
  | release rs h =>
      have hlen := ho.length_le
      rw [h] at ho ha
      have hlt : s.poolSem < 0x8ff := by omega
      have hs : Pool.hatchReleaseSemaphore s.poolSem = s.poolSem + 1 := if_pos hlt
      refine ⟨hi.paired, ho, ?_⟩
      simp only [hs, MainStage.ahead, ind_false, ind_true] at ha ⊢
      omega
  | pushed h =>
      rw [h] at ho ha
      refine ⟨hi.paired, ?_, ?_⟩
      · split <;> exact ho
      · split <;> exact ha
  | login m h | waited h | key h | abort h | endPool h | join h =>
      rw [h] at ho ha
      exact ⟨hi.paired, ho, ha⟩

omit [DecidableEq T] in
theorem PoolInv.start : PoolInv servicesType (App.start servicesType : App T) := by
  refine ⟨?_, ⟨[], rfl, ?_⟩, ?_⟩
  · intro t r
    cases r <;> exact iff_of_false nofun nofun
  · intro r
    cases r <;> simp [App.start, App.begun, Status.begun]
  · rw [count_eq_zero (fun _ => rfl)]
    rfl

end PoolInv

omit [DecidableEq T] in
theorem MainChange.lists {servicesType : ℕ} (h : MainChange servicesType s u) (hi : ListsInv s) :
    ListsInv u := by
  cases h with
  | login m h => exact ⟨hi.send.push m, hi.recv, hi.temp⟩
  | push | release | pushed | waited | key | abort | endPool | join =>
      exact ⟨hi.send, hi.recv, hi.temp⟩

omit [DecidableEq T] in
theorem Status.eq_created {P : Type} {p : Status T P} (h : p.begun = false) : p = .created := by
  cases p with
  | created => rfl
  | running | returned => cases h

/-- A runner that begins has nothing in hand. -/
theorem ListsInv.take (hi : ListsInv s) (t : T) {r : Runner} (hr : s.begun r = false) :
    ListsInv (s.take t r) := by
  cases r with
  | recv | text => exact ⟨hi.send, hi.recv, hi.temp⟩
  | send =>
      have hs := hi.send
      rw [Status.eq_created hr] at hs
      exact ⟨hs, hi.recv, hi.temp⟩
  | packet =>
      have hr' := hi.recv
      have ht := hi.temp
      rw [Status.eq_created hr] at hr' ht
      exact ⟨hi.send, hr', ht⟩

theorem WorkerChange.lists (h : WorkerChange s u) (hi : ListsInv s)
    (hc : ∀ r rs, s.listRunner = r :: rs → s.begun r = false) : ListsInv u := by
  cases h with
  | finish | wait | idle => exact ⟨hi.send, hi.recv, hi.temp⟩
  | take t r rs h hl =>
      have hi' : ListsInv { s with listRunner := rs } := ⟨hi.send, hi.recv, hi.temp⟩
      exact hi'.take t (hc r rs hl)

/-! When the events are set, and who sets them. -/

def MainStage.past : MainStage → Bool
  | .ending | .joining | .returned => true
  | _ => false

def MainStage.joins : MainStage → Bool
  | .joining | .returned => true
  | _ => false

structure EndInv (send : Status T SendStage) (main : MainStage) (runnerEnd : Bool) : Prop where
  send_returned : send = .returned → runnerEnd = true
  main_past : main.past = true → runnerEnd = true

structure JoinInv (w : T → WorkerStage) (main : MainStage) (poolEnd : Bool) : Prop where
  pool : poolEnd = true ↔ main.joins = true
  joined : main = .returned → ∀ t, w t = .ended

/-- The end event is set by a handler, by the text runner when it returns, or by `hatchMain` when
it has left the lifetime of `Textrun`. -/
structure TextInv (main : MainStage) (text : Status T TextStage)
    (runnerEnd handlerEnd textAlive dangling : Bool) : Prop where
  ended : runnerEnd = true → handlerEnd = true ∨ text = .returned ∨ main.past = true
  left : textAlive = false → handlerEnd = true ∨ text = .returned
  used : dangling = true → handlerEnd = true

structure AppInv [Fintype T] (servicesType : ℕ) (s : App T) : Prop where
  lists : ListsInv s
  pool : PoolInv servicesType s
  ends : EndInv s.send s.main s.runnerEnd
  join : JoinInv s.worker s.main s.poolEnd
  text : TextInv s.main s.text s.runnerEnd s.handlerEnd s.textAlive s.dangling

section AppInv

variable [Fintype T] {servicesType : ℕ}

omit [DecidableEq T] in
/-- While a runner is run, `hatchMain` has not returned. -/
theorem AppInv.main_ne_returned (hi : AppInv servicesType s) {t : T} {r : Runner}
    (h : s.holder r = some t) : s.main ≠ .returned := by
  intro hm
  have hw := (hi.pool.paired t r).mpr h
  rw [hi.join.joined hm t] at hw
  cases hw

theorem AppInv.recv (hi : AppInv servicesType s) (h : RecvChange s u) :
    AppInv servicesType u := by
  refine ⟨h.lists hi.lists, h.pool hi.pool, ?_, ?_, ?_⟩
  · cases h <;> exact hi.ends
  · cases h with
    | move | push => exact hi.join
    | finish t p h =>
        have hm := hi.main_ne_returned (r := .recv) (t := t) (by rw [App.holder, h]; rfl)
        exact ⟨hi.join.pool, fun hr => absurd hr hm⟩
  · cases h <;> exact hi.text

theorem AppInv.send (hi : AppInv servicesType s) (h : SendChange s u) :
    AppInv servicesType u := by
  refine ⟨h.lists hi.lists, h.pool hi.pool, ?_, ?_, ?_⟩
  · cases h with
    | wait | pop | sent => exact ⟨nofun, hi.ends.main_past⟩
    | finish t h hn he => exact ⟨fun _ => he, hi.ends.main_past⟩
  · cases h with
    | wait | pop | sent => exact hi.join
    | finish t h hn he =>
        have hm := hi.main_ne_returned (r := .send) (t := t) (by rw [App.holder, h]; rfl)
        exact ⟨hi.join.pool, fun hr => absurd hr hm⟩
  · cases h <;> exact hi.text

theorem AppInv.packet (hi : AppInv servicesType s) (h : PacketChange s u) :
    AppInv servicesType u := by
  refine ⟨h.lists hi.lists, h.pool hi.pool, ?_, ?_, ?_⟩
  · cases h with
    | effect t e es h =>
        cases e with
        | servicesEnd => exact ⟨fun _ => rfl, fun _ => rfl⟩
        | send | startText | overLeave => exact hi.ends
    | _ => exact hi.ends
  · cases h with
    | effect t e es h => cases e <;> exact hi.join
    | finish t h hn hm' he =>
        have hm := hi.main_ne_returned (r := .packet) (t := t) (by rw [App.holder, h]; rfl)
        exact ⟨hi.join.pool, fun hr => absurd hr hm⟩
    | _ => exact hi.join
  · cases h with
    | effect t e es h =>
        cases e with
        | servicesEnd => exact ⟨fun _ => .inl rfl, fun _ => .inl rfl, fun _ => rfl⟩
        | send | startText | overLeave => exact hi.text
    | _ => exact hi.text

theorem AppInv.typing (hi : AppInv servicesType s) (h : TextChange s u) :
    AppInv servicesType u := by
  refine ⟨h.lists hi.lists, h.pool hi.pool, ?_, ?_, ?_⟩
  · cases h with
    | move | push | logout => exact hi.ends
    | finish t h => exact ⟨fun _ => rfl, fun _ => rfl⟩
  · cases h with
    | move | push | logout => exact hi.join
    | finish t h =>
        have hm := hi.main_ne_returned (r := .text) (t := t) (by rw [App.holder, h]; rfl)
        exact ⟨hi.join.pool, fun hr => absurd hr hm⟩
  · have ht := hi.text
    cases h with
    | move t p q h | push t m h | logout t m h =>
        rw [h] at ht
        exact ⟨fun hr => (ht.ended hr).imp_right (Or.imp_left nofun),
          fun hl => (ht.left hl).imp_right nofun, ht.used⟩
    | finish t h => exact ⟨fun _ => .inr (.inl rfl), fun _ => .inr rfl, ht.used⟩

/-- Beginning a runner leaves the events alone; the text runner begins once. -/
theorem AppInv.taken (hi : AppInv servicesType s) {t : T} {r : Runner} (rs : List Runner)
    (h : s.worker t = .woken) (hr : s.begun r = false) :
    EndInv ({ s with listRunner := rs }.take t r).send s.main s.runnerEnd ∧
      JoinInv ({ s with listRunner := rs }.take t r).worker s.main s.poolEnd ∧
      TextInv s.main ({ s with listRunner := rs }.take t r).text s.runnerEnd s.handlerEnd
        s.textAlive ({ s with listRunner := rs }.take t r).dangling := by
  have hm : s.main ≠ .returned := by
    intro hm
    rw [hi.join.joined hm t] at h
    cases h
  refine ⟨?_, ⟨hi.join.pool, fun hm' => absurd hm' hm⟩, ?_⟩
  · cases r with
    | send => exact ⟨nofun, hi.ends.main_past⟩
    | recv | packet | text => exact hi.ends
  · have ht := hi.text
    cases r with
    | recv | send | packet => exact ht
    | text =>
        rw [Status.eq_created hr] at ht
        refine ⟨fun he => (ht.ended he).imp_right (Or.imp_left nofun),
          fun hl => (ht.left hl).imp_right nofun, ?_⟩
        intro hd
        rcases Bool.or_eq_true_iff.mp hd with hd | hd
        · exact ht.used hd
        · rw [Bool.not_eq_true'] at hd
          exact (ht.left hd).elim id nofun

omit [DecidableEq T] in
theorem AppInv.head_created (hi : AppInv servicesType s) (r : Runner) (rs : List Runner)
    (hl : s.listRunner = r :: rs) : s.begun r = false := by
  have ho := hi.pool.ordered
  rw [hl] at ho
  exact ho.head_created

theorem AppInv.worker (hi : AppInv servicesType s) (h : WorkerChange s u) :
    AppInv servicesType u := by
  have hl := h.lists hi.lists hi.head_created
  have hp := h.pool hi.pool
  cases h with
  | finish t h he =>
      refine ⟨hl, hp, hi.ends, ⟨hi.join.pool, ?_⟩, hi.text⟩
      intro hm t'
      by_cases ht : t' = t
      · subst ht
        exact Function.update_self ..
      · exact (Function.update_of_ne ht ..).trans (hi.join.joined hm t')
  | wait t h he hn =>
      refine ⟨hl, hp, hi.ends, ⟨hi.join.pool, ?_⟩, hi.text⟩
      intro hm
      rw [hi.join.joined hm t] at h
      cases h
  | idle t h hl' =>
      refine ⟨hl, hp, hi.ends, ⟨hi.join.pool, ?_⟩, hi.text⟩
      intro hm
      rw [hi.join.joined hm t] at h
      cases h
  | take t r rs h hl' =>
      obtain ⟨he, hj, ht⟩ := hi.taken rs h (hi.head_created r rs hl')
      cases r <;> exact ⟨hl, hp, he, hj, ht⟩

omit [DecidableEq T] in
theorem AppInv.mainStep (hi : AppInv servicesType s) (h : MainChange servicesType s u) :
    AppInv servicesType u := by
  have hl := h.lists hi.lists
  have hp := h.pool hi.pool
  have hj := hi.join
  have ht := hi.text
  cases h with
  | push r rs h | release rs h | login m h | key h =>
      rw [h] at hj ht
      exact ⟨hl, hp, ⟨hi.ends.send_returned, nofun⟩, ⟨hj.pool, nofun⟩, ⟨ht.ended, ht.left, ht.used⟩⟩
  | pushed h =>
      rw [h] at hj ht
      refine ⟨hl, hp, ⟨hi.ends.send_returned, ?_⟩, ⟨?_, ?_⟩, ⟨?_, ht.left, ht.used⟩⟩
      · split <;> exact nofun
      · split <;> exact hj.pool
      · split <;> exact nofun
      · split <;> exact ht.ended
  | waited h he =>
      rw [h] at hj ht
      exact ⟨hl, hp, ⟨hi.ends.send_returned, nofun⟩, ⟨hj.pool, nofun⟩,
        ⟨ht.ended, fun _ => (ht.ended he).imp_right (Or.rec id nofun), ht.used⟩⟩
  | abort h =>
      rw [h] at hj
      exact ⟨hl, hp, ⟨fun _ => rfl, fun _ => rfl⟩, ⟨hj.pool, nofun⟩,
        ⟨fun _ => .inr (.inr rfl), ht.left, ht.used⟩⟩
  | endPool h =>
      have he := hi.ends
      rw [h] at ht he
      exact ⟨hl, hp, ⟨he.send_returned, he.main_past⟩, ⟨⟨fun _ => rfl, fun _ => rfl⟩, nofun⟩,
        ⟨ht.ended, ht.left, ht.used⟩⟩
  | join h hw =>
      have he := hi.ends
      rw [h] at hj ht he
      exact ⟨hl, hp, ⟨he.send_returned, he.main_past⟩, ⟨hj.pool, fun _ => hw⟩,
        ⟨ht.ended, ht.left, ht.used⟩⟩

omit [DecidableEq T] in
theorem AppInv.start : AppInv servicesType (App.start servicesType : App T) :=
  ⟨⟨⟨rfl, rfl⟩, ⟨rfl, rfl⟩, ⟨rfl, rfl⟩⟩, .start, ⟨nofun, nofun⟩,
    ⟨⟨nofun, nofun⟩, nofun⟩, ⟨nofun, nofun, nofun⟩⟩

theorem AppInv.step {a : AppAction T} (hi : AppInv servicesType s)
    (h : appStep servicesType s a = some u) : AppInv servicesType u := by
  rcases appStep_cases h with h | h | h | h | h | h
  · exact hi.recv h
  · exact hi.send h
  · exact hi.packet h
  · exact hi.typing h
  · exact hi.worker h
  · exact hi.mainStep h

theorem AppInv.of_reachable (h : Reachable (application servicesType) s) :
    AppInv servicesType s := by
  refine Reaches.invariant ?_ ?_ h
  · rintro _ rfl
    exact .start
  · intro s a u hs _ he
    exact hs.step he

end AppInv

/-- If a consumer finishes only when all that is queued is done, then what was queued before it
finished is done afterwards. -/
theorem queued_prefix_of_path {σ α β : Type} {M : Machine σ α} {G : σ → α → Prop} (I : σ → Prop)
    (queued finished : σ → List β) (ret : σ → Prop)
    (hs : ∀ s a t, I s → G s a → M.step s a = some t → I t ∧ queued s <+: queued t ∧
      finished s <+: finished t ∧ (ret t → ret s ∨ queued t = finished t))
    {s t : σ} (h : Path M G s t) (hi : I s) (hr : ¬ ret s) (ht : ret t) :
    queued s <+: finished t := by
  have hall : I t ∧ queued s <+: queued t ∧ (ret t → queued s <+: finished t) := by
    clear ht
    induction h with
    | refl => exact ⟨hi, List.prefix_rfl, fun h => absurd h hr⟩
    | tail _ hg he ih =>
        obtain ⟨hu, hq, hd⟩ := ih
        obtain ⟨hi', hq', hd', hr'⟩ := hs _ _ _ hu hg he
        refine ⟨hi', hq.trans hq', fun ht => ?_⟩
        rcases hr' ht with hu' | he'
        · exact (hd hu').trans hd'
        · exact he' ▸ hq.trans hq'
  exact hall.2.2 ht

section Histories

variable [Fintype T] {servicesType : ℕ}

/-- Histories only grow. -/
structure Grows (s u : App T) : Prop where
  queued : s.queued <+: u.queued
  sent : s.sent <+: u.sent
  recvQueued : s.recvQueued <+: u.recvQueued
  recvHandled : s.recvHandled <+: u.recvHandled
  tempQueued : s.tempQueued <+: u.tempQueued
  tempHandled : s.tempHandled <+: u.tempHandled

omit [DecidableEq T] [Fintype T] in
theorem Grows.effect (s : App T) (e : Effect) (p : Status T PacketStage) :
    Grows s { s.effect e with packet := p } := by
  cases e <;> constructor <;> simp [App.effect, App.pushSend]

omit [Fintype T] in
theorem Grows.take (s : App T) (t : T) (r : Runner) (rs : List Runner) :
    Grows s ({ s with listRunner := rs }.take t r) := by
  cases r <;> constructor <;> exact List.prefix_rfl

theorem grows_of_step {a : AppAction T} (h : appStep servicesType s a = some u) : Grows s u := by
  rcases appStep_cases h with h | h | h | h | h | h
  · cases h <;> constructor <;> simp [App.pushRecv, App.setWorker]
  · cases h <;> constructor <;> simp [App.setWorker]
  · cases h with
    | effect t e es h => exact .effect s e _
    | _ => constructor <;> simp [App.setWorker]
  · cases h <;> constructor <;> simp [App.pushSend, App.pushTemp, App.setWorker]
  · cases h with
    | take t r rs h hl => exact .take s t r rs
    | finish | wait | idle => constructor <;> simp [App.setWorker]
  · cases h <;> constructor <;> simp [App.pushSend]

/-- The sending runner returns when it has sent all that is queued. -/
theorem AppInv.sent_of_returned {a : AppAction T} (hi : AppInv servicesType s)
    (h : appStep servicesType s a = some u) (hu : u.send = .returned) :
    s.send = .returned ∨ u.queued = u.sent := by
  rcases appStep_cases h with h | h | h | h | h | h
  · cases h <;> exact .inl hu
  · cases h with
    | finish t ht hn he =>
        have hs := hi.lists.send
        rw [ht] at hs
        exact .inr (hs.drained hn)
    | wait | pop | sent => cases hu
  · cases h with
    | effect t e es h => cases e <;> exact .inl hu
    | _ => exact .inl hu
  · cases h <;> exact .inl hu
  · cases h with
    | take t r rs h hl =>
        cases r with
        | send => cases hu
        | recv | packet | text => exact .inl hu
    | finish | wait | idle => exact .inl hu
  · cases h <;> exact .inl hu

theorem AppInv.sent_of_path (hi : AppInv servicesType s)
    (hp : Path (application servicesType) (fun _ _ => True) s u) (hs : s.send ≠ .returned)
    (hu : u.send = .returned) : s.queued <+: u.sent := by
  refine queued_prefix_of_path (AppInv servicesType) App.queued App.sent
    (fun s => s.send = .returned) ?_ hp hi hs hu
  intro s a u hi _ he
  have hg := grows_of_step he
  exact ⟨hi.step he, hg.queued, hg.sent, hi.sent_of_returned he⟩

/-- A runner that has begun does not go back. -/
theorem send_created_of_step {a : AppAction T} (h : appStep servicesType s a = some u)
    (hu : u.send = .created) : s.send = .created := by
  rcases appStep_cases h with h | h | h | h | h | h
  · cases h <;> exact hu
  · cases h <;> cases hu
  · cases h with
    | effect t e es h => cases e <;> exact hu
    | _ => exact hu
  · cases h <;> exact hu
  · cases h with
    | take t r rs h hl =>
        cases r with
        | send => cases hu
        | recv | packet | text => exact hu
    | finish | wait | idle => exact hu
  · cases h <;> exact hu

end Histories

/-- A client up to its login; the last worker has still to take the text runner. -/
def clientLogin : List (AppAction (Fin 4)) :=
  List.replicate 9 (.main .go) ++
    [.worker 0, .worker 0, .worker 1, .worker 1, .worker 2, .worker 2, .main (.login [1])]

def clientHandles (es : List Effect) : List (AppAction (Fin 4)) :=
  [.recv .test, .recv .ready, .recv (.datagram ⟨2, 0, 0, 0⟩ [2]), .recv .push,
    .packet .go, .packet .go, .packet (.handle es)] ++ List.replicate (es.length + 1) (.packet .go)

/-- The user types a word and closes the client. -/
def clientCloses : List (AppAction (Fin 4)) :=
  [.worker 3, .worker 3, .text .go, .text (.typed [3]), .text .go, .text .close]

def clientEnds : List (AppAction (Fin 4)) :=
  [.text .go] ++ List.replicate 7 .send ++
    [.recv .test, .packet .go, .packet .go, .packet (.handle []), .packet .go, .packet .go,
      .main .go, .main .go, .main .go, .worker 0, .worker 1, .worker 2, .worker 3, .main .go]

section Logout

variable {T : Type} [DecidableEq T] [Fintype T] {servicesType : ℕ} {s v u : App T} {t : T}

theorem logout_step {m : Bytes} (h : appStep servicesType s (.text (.logout m)) = some v) :
    ∃ t, v = { s.pushSend m with text := .running t .ending } := by
  simp only [appStep, textStep] at h
  split at h
  · exact ⟨_, (Option.some.inj h).symm⟩
  · cases h

/-- The workers take the text runner last, so the sending runner has begun. -/
theorem AppInv.send_begun {p : TextStage} (hi : AppInv servicesType s)
    (ht : s.text = .running t p)
    (hp : Path (application servicesType) (fun _ _ => True) s u) : u.send ≠ .created := by
  refine hp.invariant (I := fun s => s.send ≠ .created)
    (fun _ _ _ hs _ he hc => hs (send_created_of_step he hc)) fun hc => ?_
  have hb := hi.pool.ordered.begun_of_text (by rw [App.begun, ht]; rfl) .send
  rw [App.begun, hc] at hb
  cases hb

end Logout

/-- The user has closed the client, nobody else has set the end event, and the send list accepts the
Logout `m`: when `hatchMain` returns, all that was queued before has been sent and after it `m`. -/
theorem close_sends {T : Type} [DecidableEq T] [Fintype T] {servicesType : ℕ} {s v u : App T}
    {m : Bytes} (h : Reachable (application servicesType) s) (he : s.runnerEnd = false)
    (hm : s.sendList.sem < netMessageListMaxLength)
    (hv : appStep servicesType s (.text (.logout m)) = some v)
    (hp : Path (application servicesType) (fun _ _ => True) v u) (hu : u.main = .returned) :
    s.queued ++ [m] <+: u.sent := by
  have hi : AppInv servicesType v := (AppInv.of_reachable h).step hv
  obtain ⟨t, rfl⟩ := logout_step hv
  have hq : (s.pushSend m).queued = s.queued ++ [m] := by
    rw [App.pushSend, MsgQueue.accepted, if_pos hm]
  rw [← hq]
  have hj : AppInv servicesType u := hp.invariant (fun _ _ _ hs _ he => hs.step he) hi
  refine hi.sent_of_path hp ?_ ?_
  · intro hs
    rw [show s.runnerEnd = true from hi.ends.send_returned hs] at he
    cases he
  -- no worker is running the sending runner, since all have ended, and it has begun
  · cases hr : u.send with
    | created => exact absurd hr (hi.send_begun rfl hp)
    | returned => rfl
    | running w p =>
        exact absurd hu (hj.main_ne_returned (r := .send) (t := w) (by rw [App.holder, hr]; rfl))

theorem close_sends_logout :
    ∃ s u : App (Fin 4), s.queued = [[1]] ∧ s.sent = [] ∧ u.main = .returned ∧
      s.queued ++ [[4]] <+: u.sent := by
  obtain ⟨s, hs, ⟨hq, hn, he, hm⟩, hr⟩ := Reaches.exists_of_run (G := fun _ _ => True)
    (Q := fun s => (s.queued = [[1]] ∧ s.sent = [] ∧ s.runnerEnd = false ∧
      s.sendList.sem < netMessageListMaxLength) ∧
      (appStep 1 s (.text (.logout [4]))).any (fun v =>
        (run ((application 1).restrict fun _ _ => True) v clientEnds).any
          (fun u => u.main = .returned)) = true)
    (.init (M := application 1) rfl)
    (clientLogin ++ clientHandles [.startText] ++ clientCloses) (by decide +kernel)
  obtain ⟨v, hv, hu⟩ := (Option.any_eq_true _ _).mp hr
  obtain ⟨u, hu, hret⟩ := (Option.any_eq_true _ _).mp hu
  have hret := of_decide_eq_true hret
  exact ⟨s, u, hq, hn, hret, close_sends hs he hm hv (.of_run hu) hret⟩

/-- A worker uses `Textrun` after its lifetime only if a handler has ended the application. -/
theorem textrun_used_in_lifetime {T : Type} [DecidableEq T] [Fintype T] {servicesType : ℕ}
    {s : App T} (h : Reachable (application servicesType) s) (hd : s.dangling = true) :
    s.handlerEnd = true :=
  (AppInv.of_reachable h).text.used hd

/-- The end event set by a handler lets `hatchMain` leave the block before the worker begins. -/
theorem textrun_used_in_lifetime_dangling :
    ∃ s : App (Fin 4), Reachable (application 1) s ∧ s.dangling = true ∧ s.handlerEnd = true := by
  obtain ⟨s, hs, hd⟩ := Reachable.exists_run
    (.init (M := application 1) rfl)
    (clientLogin ++ clientHandles [.servicesEnd] ++ [.main .go, .worker 3, .worker 3])
    App.dangling (v := true) (by decide +kernel)
  exact ⟨s, hs, hd, textrun_used_in_lifetime hs hd⟩

end Hatch.Net
