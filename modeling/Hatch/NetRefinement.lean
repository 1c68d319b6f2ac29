import Hatch.NetHandling
import Hatch.NetTransport
import Hatch.RosterOrdered

/-!
# The processes implement the roster protocol

Every run of the system is followed by a run of the roster protocol: one step of
the system is followed by at most one step of the protocol and then by a disturbance
of its pipes. A reliable step is followed by a disturbance that a reliable network
may cause, so that what the protocol guarantees holds of the processes.
-/

namespace Hatch.Net

open ByteLayout TransitionSystem

variable {ι : Type} [DecidableEq ι] {cfg : Config ι} {s s' : System ι} {t t₁ : Roster.State ι}
  {a : SystemAction ι} {P : Option ι → Option ι → List Bytes}

theorem follows_step (h : Simulates cfg s t) (hB : Roster.Basic t)
    (he : s.execute cfg a = some s') : ∃ t₁ P, Follows cfg s a s' t t₁ P := by
  cases a with
  | memory p junk => exact ⟨t, _, follows_memory h he⟩
  | login c => exact ⟨_, follows_login h he⟩
  | logout c => exact ⟨_, follows_logout h he⟩
  | servicesEnd c => exact ⟨_, _, follows_servicesEnd h he⟩
  | transmit p => exact ⟨t, _, follows_transmit h he⟩
  | deliver q i => exact ⟨t, _, follows_deliver h he⟩
  | handle p =>
      cases p with
      | none => exact follows_handle_server h hB he
      | some c => exact follows_handle_client h hB he
  | discard q i => exact ⟨t, _, follows_discard h he⟩
  | abandon q => exact ⟨t, _, follows_abandon h he⟩
  | lose i => exact ⟨t, _, follows_lose h he⟩

/-- The messages that went astray are those of a disturbance. -/
theorem Follows.disturbed (h : Follows cfg s a s' t t₁ P) (he : s.execute cfg a = some s') :
    ∃ up down peer t', Roster.Change t₁ (.disturb up down peer) t' ∧ Simulates cfg s' t' ∧
      (Reliable cfg s a → Roster.Reliable t₁ (.disturb up down peer)) := by
  obtain ⟨up, down, peer, hu, hd, hp, hf, hue, hde, hpe⟩ := h.flows.settle h.within
  have ha := h.agrees
  refine ⟨up, down, peer, _, .disturbed up down peer hu hd hp, ⟨⟨ha.called, ha.left, ha.ended,
    ha.serverRuns, ha.server, ha.client, ha.origin, ha.source⟩, hf⟩, fun hr => ?_⟩
  have hk := h.kept hr.1 (hr.2 s' he)
  have hkept (x : Option ι) (c : ι) (hc : t₁.ended c = false) :
      s'.pipe cfg x (some c) = P x (some c) := by
    rcases hk x (some c) with hx | ⟨d, hd, hx⟩
    · exact hx
    · cases hd
      rw [hc] at hx
      cases hx
  refine ⟨funext fun c => hue c ?_, fun c hc => ⟨hde c (hkept none c hc), fun b => ?_⟩⟩
  · rcases hk (some c) none with hx | ⟨d, hd, -⟩
    · exact hx
    · cases hd
  · exact hpe b c (hkept (some b) c hc)

/-- `H` allows whatever follows a step that `G` allows. -/
theorem reaches_roster {G : System ι → SystemAction ι → Prop}
    {H : Roster.State ι → Roster.Action ι → Prop}
    (hmove : ∀ s t a b, Simulates cfg s t → Roster.Basic t → G s a → Answer cfg s t a b → H t b)
    (hdisturb : ∀ s t a up down peer, G s a →
      (Reliable cfg s a → Roster.Reliable t (.disturb up down peer)) → H t (.disturb up down peer))
    (h : Reaches (chat cfg) G s) :
    ∃ t, Reaches (Roster.machine ι) H t ∧ Simulates cfg s t := by
  refine h.simulate (Simulates cfg) ?_ ?_
  · rintro s rfl
    exact ⟨Roster.initial, rfl, simulates_start cfg⟩
  · intro s a s' t hs ht hg he
    have hB := Roster.basic_of_reaches ht
    obtain ⟨t₁, P, hF⟩ := follows_step hs hB he
    obtain ⟨up, down, peer, t', hc, hs', hr⟩ := hF.disturbed he
    have hd : Path (Roster.machine ι) H t₁ t' :=
      .single (hdisturb s t₁ a up down peer hg hr) hc.step
    rcases hF.answer with rfl | ⟨b, hb, hbc⟩
    · exact ⟨t', hd, hs'⟩
    · exact ⟨t', (Path.single (hmove s t a b hs hB hg hb) hbc.step).trans hd, hs'⟩

omit [DecidableEq ι] in
theorem System.Quiescent.pipe_eq_nil (h : s.Quiescent) (p q : Option ι) : s.pipe cfg p q = [] := by
  change pipeOf cfg s.recv s.send s.net p q = []
  rw [pipeOf, System.recv, System.send, (h.1 q).1, (h.1 p).2.1, h.2]
  rfl

omit [DecidableEq ι] in
theorem Simulates.quiet (h : Simulates cfg s t) (hq : s.Quiescent) : Roster.Quiet t := by
  refine ⟨fun c => ?_, fun c => ?_, fun b c => ?_⟩
  · have hu := h.2.up c
    rw [hq.pipe_eq_nil] at hu
    exact List.forall₂_nil_left_iff.mp hu
  · have hd := h.2.down c
    rw [hq.pipe_eq_nil] at hd
    exact List.forall₂_nil_left_iff.mp hd
  · rw [← h.2.peer b c, hq.pipe_eq_nil]
    rfl

omit [DecidableEq ι] in
theorem Simulates.mem_server (h : Simulates cfg s t) {c : ι} :
    (cfg.name c).bytes ∈ names (s.proc none).userList ↔ c ∈ t.roster :=
  h.1.server.mem_names

omit [DecidableEq ι] in
theorem Simulates.mem_client (h : Simulates cfg s t) {c d : ι} (hc : t.called c = true) :
    (cfg.name d).bytes ∈ names (s.proc (some c)).userList ↔ d = c ∨ d ∈ t.known c := by
  have hv := h.1.client c
  rw [hc] at hv
  exact hv.mem_names

end Hatch.Net
