import Hatch.NetDrain
import Mathlib.Data.Prod.Lex

/-!
# The application comes to its end

Once the end event is set, the text runner is out of the way and `hatchMain` waits for nobody but
its own threads, every run of the threads in which the handlers return is finite and ends with the
return of `hatchMain`. A handler that waits for ever at the critical section of the user list, which
another has left once too often, keeps its worker and with it `hatchMain`. What a step leaves to
do is measured in three parts: the work of the receiving and of the handling runner, which feed
other lists; the effects of the handler in progress; and the work of the sending runner and of
the workers. A step lowers one part and raises at most later ones.

A client whose end event is set by a handler before the login is answered is not so lucky: its
text runner waits for an event that nobody can set any more, and `hatchMain` never returns.
-/

namespace Hatch.Net

open ByteLayout TransitionSystem ThreadCount

def MainStage.prompted : MainStage → Bool
  | .pushing _ | .releasing _ | .naming | .prompting => false
  | .waiting | .aborting | .ending | .joining | .returned => true

def MainStage.left : MainStage → ℕ
  | .waiting => 4
  | .aborting => 3
  | .ending => 2
  | .joining => 1
  | _ => 0

def WorkerStage.free : WorkerStage → Bool
  | .waiting | .woken => true
  | .running _ | .ended => false

variable {T : Type}

section Togo

variable [Fintype T] {s u : App T}

end Togo

/-- A handler waits at the critical section of the user list. -/
def App.Blocked (s : App T) : Prop := ∃ t, s.packet = .running t .blocked

structure Closing [Fintype T] (servicesType : ℕ) (s : App T) : Prop where
  inv : AppInv servicesType s
  unblocked : ¬ s.Blocked
  ended : s.runnerEnd = true
  prompted : s.main.prompted = true
  text : s.text = .returned ∨ servicesType = 0

variable [DecidableEq T] [Fintype T] {servicesType : ℕ} {s u : App T}

omit [DecidableEq T] in
/-- `hatchMain` of the server pushes no text runner. -/
theorem Closing.text_ne_running (h : Closing servicesType s) (t : T) (p : TextStage) :
    s.text ≠ .running t p := by
  intro ht
  rcases h.text with hr | h0
  · rw [ht] at hr
    cases hr
  · obtain ⟨taken, hl, hb⟩ := h.inv.pool.ordered
    have hm : Runner.text ∈ runners servicesType := by
      rw [← hl, List.append_assoc]
      exact List.mem_append_left _ ((hb .text).mpr (by rw [App.begun, ht]; rfl))
    rw [runners, if_pos h0] at hm
    simp at hm

omit [DecidableEq T] in
theorem Closing.head_ne_text (h : Closing servicesType s) {r : Runner} {rs : List Runner}
    (hl : s.listRunner = r :: rs) : r ≠ .text := by
  rintro rfl
  rcases h.text with hr | h0
  · have hb := h.inv.head_created .text rs hl
    rw [App.begun, hr] at hb
    cases hb
  · obtain ⟨taken, ht, -⟩ := h.inv.pool.ordered
    have hm : Runner.text ∈ runners servicesType := by
      rw [← ht, hl]
      simp
    rw [runners, if_pos h0] at hm
    simp at hm

def Unblocked (_ : App T) (a : AppAction T) : Prop := a ≠ .packet .block

instance (s : App T) (a : AppAction T) : Decidable (Unblocked s a) :=
  inferInstanceAs (Decidable (a ≠ _))

omit [Fintype T] in
theorem not_blocked_of_packetStep {e : PacketEvent} (h : packetStep s e = some u)
    (he : e ≠ .block) : ¬ u.Blocked := by
  rintro ⟨t, hu⟩
  cases packetChange_of_step h with
  | block t' es hp hd =>
      cases e with
      | go => cases es <;> simp [packetStep, hp] at h
      | handle es' => simp [packetStep, hp] at h
      | block => exact he rfl
  | waitRecv | waitTemp | finish | popRecv | popTemp | handleRecv | handleTemp | effect
  | handled => cases hu

theorem not_blocked_of_step {a : AppAction T} (h : appStep servicesType s a = some u)
    (ha : Unblocked s a) (hs : ¬ s.Blocked) : ¬ u.Blocked := by
  cases a with
  | packet e => exact not_blocked_of_packetStep h fun he => ha (congrArg _ he)
  | recv e => cases recvChange_of_step h <;> exact hs
  | send => cases sendChange_of_step h <;> exact hs
  | text e => cases textChange_of_step h <;> exact hs
  | main e => cases mainChange_of_step h <;> exact hs
  | worker t =>
      cases workerChange_of_step h with
      | finish | wait | idle => exact hs
      | take t r rs hw hl =>
          cases r with
          | recv | send | text => exact hs
          | packet =>
              rintro ⟨t', ht⟩
              cases ht

theorem Closing.step {a : AppAction T} (hc : Closing servicesType s) (ha : Unblocked s a)
    (h : appStep servicesType s a = some u) : Closing servicesType u := by
  have hi := hc.inv.step h
  have hb := not_blocked_of_step h ha hc.unblocked
  rcases appStep_cases h with h | h | h | h | h | h
  · cases h <;> exact ⟨hi, hb, hc.ended, hc.prompted, hc.text⟩
  · cases h <;> exact ⟨hi, hb, hc.ended, hc.prompted, hc.text⟩
  · cases h with
    | effect t e es h =>
        cases e with
        | send | startText | overLeave => exact ⟨hi, hb, hc.ended, hc.prompted, hc.text⟩
        | servicesEnd => exact ⟨hi, hb, rfl, hc.prompted, hc.text⟩
    | _ => exact ⟨hi, hb, hc.ended, hc.prompted, hc.text⟩
  · cases h with
    | move t p q ht | push t m ht | logout t m ht | finish t ht =>
        exact absurd ht (hc.text_ne_running t _)
  · cases h with
    | finish | wait | idle => exact ⟨hi, hb, hc.ended, hc.prompted, hc.text⟩
    | take t r rs h hl =>
        cases r with
        | recv | send | packet => exact ⟨hi, hb, hc.ended, hc.prompted, hc.text⟩
        | text => exact absurd rfl (hc.head_ne_text hl)
  · have hm := hc.prompted
    cases h with
    | push r rs hs | release rs hs | pushed hs | login m hs | key hs =>
        rw [hs] at hm
        cases hm
    | waited | endPool | join => exact ⟨hi, hb, hc.ended, rfl, hc.text⟩
    | abort h => exact ⟨hi, hb, rfl, rfl, hc.text⟩

/-! No thread is stuck. -/

omit [Fintype T] in
theorem recv_enabled {t : T} {p : RecvStage} (h : s.recv = .running t p) :
    ∃ e, (recvStep s e).isSome = true := by
  cases p with
  | testing =>
      by_cases he : s.runnerEnd = true
      · exact ⟨.test, by simp only [recvStep, h, if_pos he, Option.isSome_some]⟩
      · exact ⟨.test, by simp only [recvStep, h, if_neg he, Option.isSome_some]⟩
  | selecting => exact ⟨.timeout, by simp only [recvStep, h, Option.isSome_some]⟩
  | receiving => exact ⟨.nothing, by simp only [recvStep, h, Option.isSome_some]⟩
  | pushing m => exact ⟨.push, by simp only [recvStep, h, Option.isSome_some]⟩

omit [Fintype T] in
theorem send_enabled (hl : ListsInv s) (he : s.runnerEnd = true) {t : T} {p : SendStage}
    (h : s.send = .running t p) : (sendStep s).isSome = true := by
  cases p with
  | waiting =>
      by_cases hn : 0 < s.sendList.sem
      · simp only [sendStep, h, if_pos hn, Option.isSome_some]
      · simp only [sendStep, h, if_neg hn, if_pos he, Option.isSome_some]
  | woken =>
      have hs := hl.send
      rw [h] at hs
      obtain ⟨m, l, hml⟩ := hs.exists_cons
      simp only [sendStep, h, hml, Option.isSome_some]
  | sending m => simp only [sendStep, h, Option.isSome_some]

omit [Fintype T] in
theorem packet_enabled (hl : ListsInv s) (he : s.runnerEnd = true) (hb : ¬ s.Blocked) {t : T}
    {p : PacketStage} (h : s.packet = .running t p) :
    ∃ e, e ≠ .block ∧ (packetStep s e).isSome = true := by
  cases p with
  | blocked => exact absurd ⟨t, h⟩ hb
  | waiting =>
      by_cases hr : 0 < s.recvList.sem
      · exact ⟨.go, by simp, by simp only [packetStep, h, if_pos hr, Option.isSome_some]⟩
      · by_cases ht : 0 < s.tempList.sem
        · refine ⟨.go, by simp, ?_⟩
          simp only [packetStep, h, if_neg hr, if_pos ht, Option.isSome_some]
        · refine ⟨.go, by simp, ?_⟩
          simp only [packetStep, h, if_neg hr, if_neg ht, if_pos he, Option.isSome_some]
  | wokenRecv =>
      have hr := hl.recv
      rw [h] at hr
      obtain ⟨m, l, hml⟩ := hr.exists_cons
      exact ⟨.go, by simp, by simp only [packetStep, h, hml, Option.isSome_some]⟩
  | wokenTemp =>
      have ht := hl.temp
      rw [h] at ht
      obtain ⟨m, l, hml⟩ := ht.exists_cons
      exact ⟨.go, by simp, by simp only [packetStep, h, hml, Option.isSome_some]⟩
  | handlingRecv m | handlingTemp m =>
      refine ⟨.handle [], by simp, ?_⟩
      simp only [packetStep, h, Option.isSome_some]
  | working es =>
      cases es with
      | nil => exact ⟨.go, by simp, by simp only [packetStep, h, Option.isSome_some]⟩
      | cons e es => exact ⟨.go, by simp, by simp only [packetStep, h, Option.isSome_some]⟩

omit [DecidableEq T] [Fintype T] in
theorem exists_running_of_holder {P : Type} {p : Status T P} {t : T} (h : p.holder = some t) :
    ∃ q, p = .running t q := by
  cases p with
  | running t' q =>
      cases h
      exact ⟨q, rfl⟩
  | created | returned => cases h

/-- A worker that has not ended can move, or the runner it runs can. -/
theorem Closing.worker_enabled (hc : Closing servicesType s) (he : s.poolEnd = true) {t : T}
    (ht : s.worker t ≠ .ended) :
    ∃ a, Unblocked s a ∧ (appStep servicesType s a).isSome = true := by
  cases hw : s.worker t with
  | ended => exact absurd hw ht
  | waiting =>
      refine ⟨.worker t, by simp [Unblocked], ?_⟩
      simp only [appStep, workerStep, hw, if_pos he, Option.isSome_some]
  | woken =>
      refine ⟨.worker t, by simp [Unblocked], ?_⟩
      cases hl : s.listRunner with
      | nil => simp only [appStep, workerStep, hw, hl, Option.isSome_some]
      | cons r rs => simp only [appStep, workerStep, hw, hl, Option.isSome_some]
  | running r =>
      have hh := (hc.inv.pool.paired t r).mp hw
      cases r with
      | recv =>
          obtain ⟨p, hp⟩ := exists_running_of_holder hh
          obtain ⟨e, he⟩ := recv_enabled hp
          exact ⟨.recv e, by simp [Unblocked], he⟩
      | send =>
          obtain ⟨p, hp⟩ := exists_running_of_holder hh
          exact ⟨.send, by simp [Unblocked], send_enabled hc.inv.lists hc.ended hp⟩
      | packet =>
          obtain ⟨p, hp⟩ := exists_running_of_holder hh
          obtain ⟨e, hb, he⟩ := packet_enabled hc.inv.lists hc.ended hc.unblocked hp
          exact ⟨.packet e, fun h => hb (AppAction.packet.inj h), he⟩
      | text =>
          obtain ⟨p, hp⟩ := exists_running_of_holder hh
          exact absurd hp (hc.text_ne_running t p)

theorem Closing.enabled (hc : Closing servicesType s) (hm : s.main ≠ .returned) :
    ∃ a, Unblocked s a ∧ (appStep servicesType s a).isSome = true := by
  have hp := hc.prompted
  cases h : s.main with
  | pushing | releasing | naming | prompting =>
      rw [h] at hp
      cases hp
  | returned => exact absurd h hm
  | waiting =>
      refine ⟨.main .go, by simp [Unblocked], ?_⟩
      simp only [appStep, mainStep, h, if_pos hc.ended, Option.isSome_some]
  | aborting | ending =>
      refine ⟨.main .go, by simp [Unblocked], ?_⟩
      simp only [appStep, mainStep, h, Option.isSome_some]
  | joining =>
      by_cases hw : ∀ t, s.worker t = .ended
      · refine ⟨.main .go, by simp [Unblocked], ?_⟩
        simp only [appStep, mainStep, h, if_pos hw, Option.isSome_some]
      · obtain ⟨t, ht⟩ := not_forall.mp hw
        exact hc.worker_enabled (hc.inv.join.pool.mpr (by rw [h]; rfl)) ht

/-- The worker of a handler that waits at the critical section does not come back. -/
structure Held [Fintype T] (servicesType : ℕ) (t : T) (s : App T) : Prop where
  inv : AppInv servicesType s
  packet : s.packet = .running t .blocked

theorem Held.step {t : T} {a : AppAction T} (hb : Held servicesType t s)
    (h : appStep servicesType s a = some u) : Held servicesType t u := by
  have hi := hb.inv.step h
  have hp := hb.packet
  rcases appStep_cases h with h | h | h | h | h | h
  · cases h <;> exact ⟨hi, hp⟩
  · cases h <;> exact ⟨hi, hp⟩
  · cases h with
    | waitRecv t ht | waitTemp t ht | finish t ht | popRecv t m l ht | popTemp t m l ht
    | handleRecv t m es ht | handleTemp t m es ht | effect t e es ht | handled t ht
    | block t es ht =>
        rw [ht] at hp
        cases hp
  · cases h <;> exact ⟨hi, hp⟩
  · cases h with
    | finish | wait | idle => exact ⟨hi, hp⟩
    | take t' r rs hw hl =>
        have hn := hb.inv.head_created r rs hl
        cases r with
        | recv | send | text => exact ⟨hi, hp⟩
        | packet =>
            rw [App.begun, hp] at hn
            cases hn
  · cases h <;> exact ⟨hi, hp⟩

omit [DecidableEq T] in
theorem Held.main_ne_returned {t : T} (hb : Held servicesType t s) : s.main ≠ .returned :=
  hb.inv.main_ne_returned (r := .packet) (t := t) (by rw [App.holder, hb.packet]; rfl)

structure Stuck [Fintype T] (servicesType : ℕ) (t : T) (s : App T) : Prop where
  inv : AppInv servicesType s
  text : s.text = .running t .waiting
  startText : s.startText = false
  packet : s.packet = .returned

/-- Only a handler can set the event that the text runner waits for. -/
theorem Stuck.step {t : T} {a : AppAction T} (hs : Stuck servicesType t s)
    (h : appStep servicesType s a = some u) : Stuck servicesType t u := by
  have hi := hs.inv.step h
  rcases appStep_cases h with h | h | h | h | h | h
  · cases h <;> exact ⟨hi, hs.text, hs.startText, hs.packet⟩
  · cases h <;> exact ⟨hi, hs.text, hs.startText, hs.packet⟩
  · have hp := hs.packet
    cases h with
    | waitRecv t ht | waitTemp t ht | finish t ht | popRecv t m l ht | popTemp t m l ht
    | handleRecv t m es ht | handleTemp t m es ht | effect t e es ht | handled t ht
    | block t es ht =>
        rw [ht] at hp
        cases hp
  · have ht := hs.text
    cases h with
    | move t' p q hm hw =>
        rw [hm] at ht
        cases ht
        exact absurd (hw rfl) (by rw [hs.startText]; nofun)
    | push t' m hm | logout t' m hm | finish t' hm =>
        rw [hm] at ht
        cases ht
  · cases h with
    | finish | wait | idle => exact ⟨hi, hs.text, hs.startText, hs.packet⟩
    | take t' r rs hw hl =>
        have hb := hs.inv.head_created r rs hl
        cases r with
        | recv | send => exact ⟨hi, hs.text, hs.startText, hs.packet⟩
        | packet =>
            rw [App.begun, hs.packet] at hb
            cases hb
        | text =>
            rw [App.begun, hs.text] at hb
            cases hb
  · cases h <;> exact ⟨hi, hs.text, hs.startText, hs.packet⟩

/-- If the handling runner has returned before a login was answered, the text runner waits for
ever and `hatchMain` never returns. -/
theorem hatchMain_never_returns {T : Type} [DecidableEq T] [Fintype T] {servicesType : ℕ}
    {s u : App T} {t : T} (h : Reachable (application servicesType) s)
    (ht : s.text = .running t .waiting) (hs : s.startText = false) (hp : s.packet = .returned)
    (hu : Path (application servicesType) (fun _ _ => True) s u) :
    u.text = .running t .waiting ∧ u.main ≠ .returned := by
  have hi : Stuck servicesType t u :=
    hu.invariant (fun _ _ _ hs _ he => hs.step he) ⟨.of_reachable h, ht, hs, hp⟩
  exact ⟨hi.text, hi.inv.main_ne_returned (r := .text) (t := t) (by rw [App.holder, hi.text]; rfl)⟩

/-- A handler has ended a client that waits for the answer to its login. -/
theorem hatchMain_never_returns_unanswered :
    ∃ s u : App (Fin 4), s.runnerEnd = true ∧ u.main = .joining ∧ u.text = .running 3 .waiting ∧
      u.main ≠ .returned := by
  obtain ⟨s, u, hs, hp, hq⟩ := Reaches.exists_path (G := fun _ _ => True)
    (Q := fun s u => s.runnerEnd = true ∧ u.main = .joining ∧ s.text = .running 3 .waiting ∧
      s.startText = false ∧ s.packet = .returned)
    (.init (M := application 1) rfl)
    (clientLogin ++ [.worker 3, .worker 3] ++ clientHandles [.servicesEnd] ++ [.packet .go])
    [.main .go, .main .go, .main .go] (by decide +kernel)
  exact ⟨s, u, hq.1, hq.2.1, hatchMain_never_returns hs hq.2.2.1 hq.2.2.2.1 hq.2.2.2.2 hp⟩

end Hatch.Net
