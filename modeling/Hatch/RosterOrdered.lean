import Hatch.Roster

/-!
# The roster protocol over a reliable network

With every pipe in order and nothing lost, the notices on the way to a client say
where it stands in its login, and any two clients on the roster are introduced to
each other: the announcement of the later one is still on its way to the earlier
one, or the earlier one knows it and its greeting is on its way or has arrived.
When nothing is on its way both know each other.
-/

namespace Hatch.Roster

open TransitionSystem

variable {ι : Type} [DecidableEq ι]

/-- What holds as long as requests are neither lost nor reordered. -/
structure Safe (s : State ι) : Prop extends Basic s where
  first : ∀ c, s.called c = true → s.seen c = false → ∃ r, s.up c = .login :: r
  pending : ∀ c, s.left c = true → s.seen c = false ∨ c ∈ s.roster → .logout ∈ s.up c
  gone : ∀ c d, .logout d ∈ s.down c → d ∉ s.roster ∧ s.seen d = true
  single : ∀ c d, (s.down c).count (.update d) ≤ 1
  fresh : ∀ c d, c ≠ d → .update d ∈ s.down c →
    d ∉ s.known c ∧ s.peer d c = 0 ∧ .update c ∉ s.down d

def Plain (c : ι) (l : List (Notice ι)) : Prop := .reply ∉ l ∧ .update c ∉ l

/-- The three phases of a login: own status and notices on the way. -/
inductive Phase (c : ι) : Status → List (Notice ι) → Prop
  | waiting {r : List (Notice ι)} (h : Plain c r) : Phase c .online (.reply :: .update c :: r)
  | replied {r : List (Notice ι)} (h : Plain c r) : Phase c .login (.update c :: r)
  | settled {r : List (Notice ι)} (h : Plain c r) : Phase c .online r

/-- `c` learns of `d` from the server, and `d` learns of `c` by its greeting. -/
def Introduced (s : State ι) (c d : ι) : Prop :=
  .update d ∈ s.down c ∨ d ∈ s.known c ∧ (c ∈ s.known d ∨ 0 < s.peer c d)

structure Ordered (s : State ι) : Prop extends Safe s where
  phase : ∀ c, s.seen c = true → s.ended c = false → Phase c (s.status c) (s.down c)
  introduced : ∀ c d, c ≠ d → c ∈ s.roster → d ∈ s.roster → s.ended c = false →
    s.ended d = false → Introduced s c d ∨ Introduced s d c

theorem ordered_initial : Ordered (initial : State ι) := by
  refine ⟨⟨basic_initial, ?_, ?_, ?_, ?_, ?_⟩, ?_, ?_⟩ <;> simp [initial]

section Pipes

variable {α : Type} {pipe : ι → List α} {down : ι → List (Notice ι)} {c x : ι} {l : List ι}
  {m y : α} {r : List α} {k k' n : Notice ι}

theorem mem_pop (hr : pipe c = m :: r) (hy : y ∈ pipe x) (hne : x = c → y ≠ m) :
    y ∈ Function.update pipe c r x := by
  by_cases hx : x = c
  · subst hx
    rw [hr] at hy
    rw [Function.update_self]
    exact (List.mem_cons.mp hy).resolve_left (hne rfl)
  · rwa [Function.update_of_ne hx]

theorem count_broadcast_push :
    (broadcast (push down c k') l n x).count k =
      (down x).count k + (if x = c ∧ k' = k then 1 else 0) + if x ∈ l ∧ n = k then 1 else 0 := by
  have hone (p : Prop) [Decidable p] (m : Notice ι) :
      (if p then [m] else []).count k = if p ∧ m = k then 1 else 0 := by
    by_cases hp : p
    · simp [hp, List.count_singleton]
    · simp [hp]
  rw [broadcast_push_apply, List.count_append, List.count_append, hone, hone]

theorem setPeer_pred_le (peer : ι → ι → ℕ) (a c x y : ι) :
    setPeer peer a c (peer a c - 1) x y ≤ peer x y := by
  rw [setPeer_apply]
  split_ifs with he
  · obtain ⟨rfl, rfl⟩ := he
    omega
  · exact Nat.le_refl _

end Pipes

section Safe

variable {s t : State ι} {a c d : ι} (h : Safe s)
include h

theorem Safe.shrink {down : ι → List (Notice ι)} {peer : ι → ι → ℕ}
    (hd : ∀ c, (down c).Subperm (s.down c)) (hp : ∀ a c, peer a c ≤ s.peer a c) :
    Safe { s with down := down, peer := peer } := by
  refine { h with
    toBasic := h.toBasic.shrink (fun _ => .refl _) hd hp
    gone := fun c d hm => h.gone c d ((hd c).subset hm)
    single := fun c d => Nat.le_trans ((hd c).count_le _) (h.single c d)
    fresh := ?_ }
  intro c d hne hm
  obtain ⟨hk, hz, hn⟩ := h.fresh c d hne ((hd c).subset hm)
  exact ⟨hk, Nat.le_zero.mp (hz ▸ hp d c), fun hm' => hn ((hd d).subset hm')⟩

theorem Safe.hear {m : Notice ι} {r : List (Notice ι)} (hr : s.down c = m :: r) :
    Safe { s with down := Function.update s.down c r } :=
  h.shrink (pop_subperm hr) (fun _ _ => Nat.le_refl _)

theorem Safe.change_login (hc : s.called c = false)
    (hb : Basic { s with called := Function.update s.called c true, up := push s.up c .login }) :
    Safe { s with called := Function.update s.called c true, up := push s.up c .login } := by
  refine { h with toBasic := hb, first := ?_, pending := ?_ }
  · intro x hx hs
    rcases update_true_iff.mp hx with rfl | hx
    · exact ⟨[], by simp [push, h.up_eq_nil hc]⟩
    · obtain ⟨r, hr⟩ := h.first x hx hs
      have hxc : x ≠ c := by
        rintro rfl
        simp [h.up_eq_nil hc] at hr
      exact ⟨r, by simpa [push, hxc] using hr⟩
  · exact fun x hl hx => mem_push.mpr (.inl (h.pending x hl hx))

theorem Safe.change_logout
    (hb : Basic { s with left := Function.update s.left c true, up := push s.up c .logout }) :
    Safe { s with left := Function.update s.left c true, up := push s.up c .logout } := by
  refine { h with toBasic := hb, first := ?_, pending := ?_ }
  · intro x hx hs
    obtain ⟨r, hr⟩ := h.first x hx hs
    by_cases hxc : x = c
    · subst hxc
      exact ⟨r ++ [.logout], by simp [push, hr]⟩
    · exact ⟨r, by simpa [push, hxc] using hr⟩
  · intro x hl hx
    rcases update_true_iff.mp hl with rfl | hl
    · exact mem_push.mpr (.inr ⟨rfl, rfl⟩)
    · exact mem_push.mpr (.inl (h.pending x hl hx))

theorem Safe.change_admitted {r : List Request} (hr : s.up c = .login :: r) (hn : c ∉ s.roster) :
    Safe { s with
      up := Function.update s.up c r
      seen := Function.update s.seen c true
      roster := s.roster ++ [c]
      down := broadcast (push s.down c .reply) (s.roster ++ [c]) (.update c) } := by
  have hs : s.seen c = false := (h.login c (by simp [hr])).2
  have hdown (m : Notice ι) : m ∉ s.down c := fun hm => by simp [h.down c m hm] at hs
  have hnew (x : ι) : .update c ∉ s.down x := fun hm => by simp [h.update x c hm] at hs
  refine { h with
    toBasic := h.toBasic.change_admitted hr hn
    first := ?_
    pending := ?_
    gone := ?_
    single := ?_
    fresh := ?_ }
  · intro x hx hsx
    obtain ⟨hxc, hsx⟩ := update_true_eq_false hsx
    obtain ⟨r', hr'⟩ := h.first x hx hsx
    exact ⟨r', by simpa [hxc] using hr'⟩
  · intro x hl hx
    by_cases hxc : x = c
    · subst hxc
      have hm := h.pending x hl (.inl hs)
      rw [hr] at hm
      simpa using hm
    · have hx' : s.seen x = false ∨ x ∈ s.roster := by simpa [hxc] using hx
      simpa [hxc] using h.pending x hl hx'
  · intro x d hm
    rcases mem_broadcast_push.mp hm with hm | ⟨_, hm⟩ | ⟨_, hm⟩
    · obtain ⟨hd, hsd⟩ := h.gone x d hm
      have hdc : d ≠ c := by
        rintro rfl
        simp [hs] at hsd
      exact ⟨by simp [hd, hdc], update_true_of hsd⟩
    · cases hm
    · cases hm
  · intro x d
    have hone := h.single x d
    have hzero (hd : c = d) : (s.down x).count (.update d) = 0 :=
      List.count_eq_zero.mpr (hd ▸ hnew x)
    change (broadcast _ _ _ x).count _ ≤ 1
    rw [count_broadcast_push]
    by_cases hd : c = d
    · rw [hzero hd]
      simp only [Notice.update.injEq, reduceCtorEq, and_false, if_false]
      split_ifs <;> simp
    · simpa [hd] using hone
  · intro x d hne hm
    rcases mem_broadcast_push.mp hm with hm | ⟨_, hm⟩ | ⟨_, hm⟩
    · obtain ⟨hk, hz, hnd⟩ := h.fresh x d hne hm
      refine ⟨hk, hz, fun hm' => ?_⟩
      rcases mem_broadcast_push.mp hm' with hm' | ⟨_, hm'⟩ | ⟨_, hm'⟩
      · exact hnd hm'
      · cases hm'
      · cases hm'
        exact hdown _ hm
    · cases hm
    · cases hm
      refine ⟨?_, ?_, fun hm' => ?_⟩
      · exact fun hk => by simp [(h.known x c hk).2] at hs
      · by_contra hp
        simp [(h.peer c x (Nat.pos_of_ne_zero hp)).1] at hs
      · rcases mem_broadcast_push.mp hm' with hm' | ⟨_, hm'⟩ | ⟨_, hm'⟩
        · exact hdown _ hm'
        · cases hm'
        · cases hm'
          exact hne rfl

/-- A Logout request at the head shows that the Login has been served. -/
theorem Safe.seen_of_logout {r : List Request} (hr : s.up c = .logout :: r) :
    s.seen c = true := by
  by_contra hs
  have hl := h.request c (by simp [hr])
  obtain ⟨r', hr'⟩ := h.first c (h.left c hl) (by simpa using hs)
  rw [hr] at hr'
  cases hr'

/-- Serving a client that has been admitted leaves the Logins of the others. -/
theorem Safe.first_serve (hs : s.seen c = true) (r : List Request) (x : ι)
    (hx : s.called x = true) (hsx : s.seen x = false) :
    ∃ r', Function.update s.up c r x = .login :: r' := by
  have hxc : x ≠ c := by
    rintro rfl
    simp [hs] at hsx
  rw [Function.update_of_ne hxc]
  exact h.first x hx hsx

theorem Safe.change_dismissed {r : List Request} (hr : s.up c = .logout :: r)
    (hn : c ∈ s.roster) :
    Safe { s with
      up := Function.update s.up c r
      roster := s.roster.erase c
      down := broadcast (push s.down c (.logout c)) (s.roster.erase c) (.logout c) } := by
  have hs := h.seen_of_logout hr
  have hnot : c ∉ s.roster.erase c := h.nodup.not_mem_erase
  refine { h with
    toBasic := h.toBasic.change_dismissed hr hn
    first := ?_
    pending := ?_
    gone := ?_
    single := ?_
    fresh := ?_ }
  · exact h.first_serve hs r
  · intro x hl hx
    have hxc : x ≠ c := by
      rintro rfl
      rcases hx with hx | hx
      · simp [hs] at hx
      · exact hnot hx
    simpa [hxc] using h.pending x hl (hx.imp id List.mem_of_mem_erase)
  · intro x d hm
    rcases mem_broadcast_push.mp hm with hm | ⟨_, hm⟩ | ⟨_, hm⟩
    · exact ⟨fun hd => (h.gone x d hm).1 (List.mem_of_mem_erase hd), (h.gone x d hm).2⟩
    · cases hm
      exact ⟨hnot, hs⟩
    · cases hm
      exact ⟨hnot, hs⟩
  · intro x d
    change (broadcast _ _ _ x).count _ ≤ 1
    simpa [count_broadcast_push] using h.single x d
  · intro x d hne hm
    have hold {y z : ι} (hm : .update z ∈ broadcast (push s.down c (.logout c)) (s.roster.erase c)
        (.logout c) y) : .update z ∈ s.down y := by
      simpa [mem_broadcast_push] using hm
    obtain ⟨hk, hz, hnd⟩ := h.fresh x d hne (hold hm)
    exact ⟨hk, hz, fun hm' => hnd (hold hm')⟩

theorem Safe.change_absent {r : List Request} (hr : s.up c = .logout :: r) (hn : c ∉ s.roster) :
    Safe { s with up := Function.update s.up c r } := by
  have hs := h.seen_of_logout hr
  refine { h with toBasic := h.toBasic.serve hr, first := ?_, pending := ?_ }
  · exact h.first_serve hs r
  · intro x hl hx
    have hxc : x ≠ c := by
      rintro rfl
      rcases hx with hx | hx
      · simp [hs] at hx
      · exact hn hx
    simpa [hxc] using h.pending x hl hx

theorem Safe.change_newcomer {r : List (Notice ι)} (hr : s.down c = .update d :: r) (hd : d ≠ c) :
    Safe { s with
      down := Function.update s.down c r
      known := push s.known c d
      peer := setPeer s.peer c d (s.peer c d + 1) } := by
  have hc := h.seen_of_head hr
  have hd' := h.update c d (by simp [hr])
  have hnd : .update d ∉ r := by
    have ho := h.single c d
    rw [hr, List.count_cons_self] at ho
    exact List.count_eq_zero.mp (by omega)
  refine { h.hear hr with
    toBasic := ((h.toBasic.hear hr).meet hc hd').setPeer hc hd'
    fresh := ?_ }
  intro x y hne hm
  obtain ⟨hk, hz, hn⟩ := (h.hear hr).fresh x y hne hm
  refine ⟨fun hy => ?_, ?_, hn⟩
  · rcases mem_push.mp hy with hy | ⟨rfl, rfl⟩
    · exact hk hy
    · exact hnd (by simpa using hm)
  · change setPeer _ _ _ _ y x = 0
    rw [setPeer_apply, if_neg]
    · exact hz
    · rintro ⟨rfl, rfl⟩
      exact (h.fresh y x hd.symm (by simp [hr])).2.2 (mem_of_mem_update (by simp [hr]) hm)

theorem Safe.change_greeted (hp : 0 < s.peer a c) :
    Safe { s with
      peer := setPeer s.peer a c (s.peer a c - 1)
      known := push s.known c a } := by
  have hac := h.peer a c hp
  refine { h with
    toBasic := (h.toBasic.setPeer hac.1 hac.2).meet hac.2 hac.1
    fresh := ?_ }
  intro x y hne hm
  obtain ⟨hk, hz, hn⟩ := h.fresh x y hne hm
  refine ⟨fun hy => ?_, ?_, hn⟩
  · rcases mem_push.mp hy with hy | ⟨rfl, rfl⟩
    · exact hk hy
    · omega
  · change setPeer _ _ _ _ y x = 0
    rw [setPeer_apply]
    split_ifs with he
    · obtain ⟨rfl, rfl⟩ := he
      omega
    · exact hz

theorem Safe.change {b : Action ι} (hg : Reliable s b) (hb : Change s b t) : Safe t := by
  have hbasic := h.toBasic.change hb
  cases hb with
  | login c hc => exact h.change_login hc hbasic
  | logout c hc => exact h.change_logout hbasic
  | finish c hc => exact { h with toBasic := hbasic }
  | refused c r hr hn =>
      exact absurd (h.roster c hn) (by simp [(h.login c (by simp [hr])).2])
  | admitted c r hr hn => exact h.change_admitted hr hn
  | dismissed c r hr hn => exact h.change_dismissed hr hn
  | absent c r hr hn => exact h.change_absent hr hn
  | replied c r hr => exact { h.hear hr with toBasic := hbasic }
  | failed c r hr => exact { h.hear hr with toBasic := hbasic }
  | confirmed c r hr hs => exact { h.hear hr with toBasic := hbasic }
  | mistaken c d r hr hs hd => exact { h.hear hr with toBasic := hbasic }
  | newcomer c d r hr hs hd hk => exact h.change_newcomer hr hd
  | stale c d r hr hs hd => exact h.hear hr
  | expelled c r hr => exact { h.hear hr with toBasic := hbasic }
  | parted c d r hr hd =>
      refine { h.hear hr with toBasic := hbasic, fresh := ?_ }
      intro x y hne hm
      obtain ⟨hk, hz, hn⟩ := (h.hear hr).fresh x y hne hm
      exact ⟨fun hy => hk (mem_of_mem_update List.erase_subset hy), hz, hn⟩
  | greeted a c hp ha hk => exact h.change_greeted hp
  | regreeted a c hp ha => exact h.shrink (fun _ => .refl _) (setPeer_pred_le s.peer a c)
  | disturbed up down peer hu hd hp =>
      obtain ⟨rfl, _⟩ := hg
      exact h.shrink hd hp

end Safe

omit [DecidableEq ι] in
theorem Phase.append {c : ι} {st : Status} {l : List (Notice ι)} {m : Notice ι} (h : Phase c st l)
    (hm : m ≠ .reply ∧ m ≠ .update c) : Phase c st (l ++ [m]) := by
  have hplain {r : List (Notice ι)} (hr : Plain c r) : Plain c (r ++ [m]) := by
    simp [Plain, hr.1, hr.2, hm.1.symm, hm.2.symm]
  cases h with
  | waiting hr => exact .waiting (hplain hr)
  | replied hr => exact .replied (hplain hr)
  | settled hr => exact .settled (hplain hr)

theorem Phase.broadcast {c x : ι} {st : Status} {down : ι → List (Notice ι)} {l : List ι}
    {k n : Notice ι} (h : Phase x st (down x)) (hk : x = c → k ≠ .reply ∧ k ≠ .update x)
    (hn : n ≠ .reply ∧ n ≠ .update x) : Phase x st (broadcast (push down c k) l n x) := by
  have hp : Phase x st (push down c k x) := by
    by_cases hx : x = c
    · subst hx
      simpa [push] using h.append (hk rfl)
    · simpa [push, hx] using h
  by_cases hx : x ∈ l
  · simpa [Roster.broadcast, hx] using hp.append hn
  · simpa [Roster.broadcast, hx] using hp

omit [DecidableEq ι] in
/-- A client past its login phases hears about others only. -/
theorem Phase.settled_of_head {c : ι} {st : Status} {m : Notice ι} {r : List (Notice ι)}
    (h : Phase c st (m :: r)) (hm : m ≠ .reply) (hc : m ≠ .update c) :
    st = .online ∧ Phase c .online r := by
  cases h with
  | waiting hr => exact absurd rfl hm
  | replied hr => exact absurd rfl hc
  | settled hr =>
      exact ⟨rfl, .settled ⟨fun h => hr.1 (List.mem_cons_of_mem _ h),
        fun h => hr.2 (List.mem_cons_of_mem _ h)⟩⟩

section Ordered

variable {s t : State ι} {c d : ι} (h : Ordered s)
include h

/-- Only the phase of the client that moves is to be shown. -/
theorem Ordered.phase_update (c : ι) (st : Status) (r : List (Notice ι))
    (hc : s.ended c = false → Phase c st r) (x : ι) (hs : s.seen x = true)
    (he : s.ended x = false) :
    Phase x (Function.update s.status c st x) (Function.update s.down c r x) := by
  by_cases hx : x = c
  · subst hx
    rw [Function.update_self, Function.update_self]
    exact hc he
  · rw [Function.update_of_ne hx, Function.update_of_ne hx]
    exact h.phase x hs he

theorem Ordered.phase_of_head {m : Notice ι} {r : List (Notice ι)} (hr : s.down c = m :: r)
    (hc : s.ended c = false) : Phase c (s.status c) (m :: r) :=
  hr ▸ h.phase c (h.seen_of_head hr) hc

theorem Ordered.phase_pop {m : Notice ι} {r : List (Notice ι)} (hr : s.down c = m :: r)
    (hm : m ≠ .reply) (hc : m ≠ .update c) (x : ι) (hs : s.seen x = true)
    (he : s.ended x = false) : Phase x (s.status x) (Function.update s.down c r x) := by
  have hp := h.phase_update c (s.status c) r ?_ x hs he
  · rwa [Function.update_eq_self] at hp
  · intro hce
    obtain ⟨ho, hp⟩ := (h.phase_of_head hr hce).settled_of_head hm hc
    exact ho ▸ hp

theorem Ordered.phase_change {b : Action ι} (hg : Reliable s b) (hb : Change s b t) (x : ι)
    (hs : t.seen x = true) (he : t.ended x = false) : Phase x (t.status x) (t.down x) := by
  cases hb with
  | finish c hc => exact h.phase x hs (update_true_eq_false he).2
  | refused c r hr hn =>
      exact absurd (h.roster c hn) (by simp [(h.login c (by simp [hr])).2])
  | admitted c r hr hn =>
      have hsc : s.seen c = false := (h.login c (by simp [hr])).2
      by_cases hx : x = c
      · subst hx
        have hst : s.status x = .online := by
          by_contra hst
          simp [h.status x hst] at hsc
        have hd : s.down x = [] := by
          apply List.eq_nil_iff_forall_not_mem.mpr
          exact fun m hm => by simp [h.down x m hm] at hsc
        have hp : Phase x .online [.reply, .update x] := .waiting (by simp [Plain])
        simpa [hst, broadcast, push, hd] using hp
      · have hsx : s.seen x = true := (update_true_iff.mp hs).resolve_left hx
        exact (h.phase x hsx he).broadcast (fun hxc => absurd hxc hx) (by simpa using Ne.symm hx)
  | dismissed c r hr hn => exact (h.phase x hs he).broadcast (by simp) (by simp)
  | replied c r hr =>
      refine h.phase_update c _ r (fun hce => ?_) x hs he
      have hph := h.phase_of_head hr hce
      generalize s.status c = st at hph
      cases hph with
      | waiting hp => exact .replied hp
      | settled hp => exact absurd (List.mem_cons_self ..) hp.1
  | failed c r hr => exact absurd (by simp [hr]) (h.error c)
  | confirmed c r hr hl =>
      refine h.phase_update c _ r (fun hce => ?_) x hs he
      have hph := h.phase_of_head hr hce
      rw [hl] at hph
      cases hph with
      | replied hp => exact .settled hp
  | mistaken c d r hr hl hd =>
      refine h.phase_update c _ r (fun hce => ?_) x hs he
      have hph := h.phase_of_head hr hce
      rw [hl] at hph
      cases hph with
      | replied hp => exact absurd rfl hd
  | newcomer c d r hr hst hd hk => exact h.phase_pop hr (by simp) (by simpa using hd) x hs he
  | stale c d r hr hst hd =>
      by_cases hdc : d = c
      · subst hdc
        have hp := h.phase_update d (s.status d) r ?_ x hs he
        · rwa [Function.update_eq_self] at hp
        · intro hce
          have hph := h.phase_of_head hr hce
          generalize s.status d = st at hph hst
          cases hph with
          | replied hp => exact absurd rfl hst
          | settled hp => exact absurd (List.mem_cons_self ..) hp.2
      · exact h.phase_pop hr (by simp) (by simpa using hdc) x hs he
  | expelled c r hr =>
      obtain ⟨hx, he⟩ := update_true_eq_false he
      have hp := h.phase_pop hr (by simp) (by simp) x hs he
      simpa [hx] using hp
  | parted c d r hr hd => exact h.phase_pop hr (by simp) (by simp) x hs he
  | disturbed up down peer hu hd hp =>
      have hdown : down x = s.down x := (hg.2 x he).1
      change Phase x (s.status x) (down x)
      rw [hdown]
      exact h.phase x hs he
  | _ => exact h.phase x hs he

/-- An introduction of two clients on the roster goes on until both know each other. -/
theorem Ordered.introduced_change {b : Action ι} (hg : Reliable s b) (hb : Change s b t)
    (hne : c ≠ d) (hc : c ∈ s.roster) (hd : d ∈ s.roster) (hce : t.ended c = false)
    (hde : t.ended d = false) (hi : Introduced s c d) : Introduced t c d := by
  have hpop {x : ι} {m : Notice ι} {r : List (Notice ι)} (hr : s.down x = m :: r)
      (hm : c = x → m ≠ .update d) (hu : .update d ∈ s.down c) :
      .update d ∈ Function.update s.down x r c :=
    mem_pop hr hu (fun hx => (hm hx).symm)
  cases hb with
  | refused x r hr hn =>
      exact absurd (h.roster x hn) (by simp [(h.login x (by simp [hr])).2])
  | admitted x r hr hn => exact hi.imp (fun hu => mem_broadcast_push.mpr (.inl hu)) id
  | dismissed x r hr hn => exact hi.imp (fun hu => mem_broadcast_push.mpr (.inl hu)) id
  | replied x r hr => exact hi.imp (hpop hr (by simp)) id
  | failed x r hr => exact hi.imp (hpop hr (by simp)) id
  | confirmed x r hr hs =>
      refine hi.imp (hpop hr ?_) id
      rintro rfl
      simpa using hne
  | mistaken x y r hr hs hy =>
      refine hi.imp (hpop hr ?_) id
      rintro rfl hm
      have hph := h.phase_of_head hr hce
      rw [hs] at hph
      cases hph with
      | replied hp => exact hy rfl
  | newcomer x y r hr hs hy hk =>
      by_cases hxy : c = x ∧ d = y
      · obtain ⟨rfl, rfl⟩ := hxy
        refine .inr ⟨mem_push.mpr (.inr ⟨rfl, rfl⟩), .inr ?_⟩
        simp [setPeer_apply]
      · refine hi.imp (hpop hr ?_) ?_
        · rintro rfl hm
          exact hxy ⟨rfl, by simpa using hm.symm⟩
        · rintro ⟨hcd, hdc⟩
          refine ⟨mem_push.mpr (.inl hcd), hdc.imp (fun hdc => mem_push.mpr (.inl hdc)) ?_⟩
          intro hp
          simpa [setPeer_apply, hxy] using hp
  | stale x y r hr hs hy =>
      refine hi.imp (hpop hr ?_) id
      rintro rfl hm
      obtain rfl : y = d := by simpa using hm
      have hph := h.phase_of_head hr hce
      have ho := (hph.settled_of_head (by simp) (by simpa using hne.symm)).1
      rcases hy ho with rfl | hk
      · exact hne rfl
      · exact (h.fresh c y hne (by simp [hr])).1 hk
  | expelled x r hr => exact hi.imp (hpop hr (by simp)) id
  | parted x y r hr hy =>
      have hgone := (h.gone x y (by simp [hr])).1
      have hkeep {u v : ι} (hv : v ∈ s.roster) (hk : v ∈ s.known u) :
          v ∈ Function.update s.known x ((s.known x).erase y) u := by
        have hvy : v ≠ y := fun he => hgone (he ▸ hv)
        by_cases hu : u = x
        · subst hu
          rw [Function.update_self]
          exact (List.mem_erase_of_ne hvy).mpr hk
        · rwa [Function.update_of_ne hu]
      exact hi.imp (hpop hr (by simp)) (fun hk => ⟨hkeep hd hk.1, hk.2.imp (hkeep hc) id⟩)
  | greeted x y hp hx hk =>
      refine hi.imp id ?_
      rintro ⟨hcd, hdc⟩
      refine ⟨mem_push.mpr (.inl hcd), ?_⟩
      by_cases hxy : c = x ∧ d = y
      · exact .inl (mem_push.mpr (.inr ⟨hxy.2, hxy.1⟩))
      · refine hdc.imp (fun hdc => mem_push.mpr (.inl hdc)) ?_
        intro hp
        simpa [setPeer_apply, hxy] using hp
  | regreeted x y hp hx =>
      refine hi.imp id ?_
      rintro ⟨hcd, hdc⟩
      refine ⟨hcd, ?_⟩
      by_cases hxy : c = x ∧ d = y
      · obtain ⟨rfl, rfl⟩ := hxy
        exact .inl (hx.resolve_left hne)
      · refine hdc.imp id ?_
        intro hp
        simpa [setPeer_apply, hxy] using hp
  | disturbed up down peer hu hdn hp =>
      have hdown : down c = s.down c := (hg.2 c hce).1
      have hpeer : peer c d = s.peer c d := (hg.2 d hde).2 c
      refine hi.imp (fun hm => ?_) (fun hk => ⟨hk.1, hk.2.imp id (fun hp => ?_)⟩)
      · simpa only [hdown] using hm
      · simpa only [hpeer] using hp
  | _ => exact hi

theorem Ordered.change {b : Action ι} (hg : Reliable s b) (hb : Change s b t) : Ordered t := by
  refine ⟨h.toSafe.change hg hb, h.phase_change hg hb, ?_⟩
  intro c d hne hc hd hce hde
  by_cases hold : c ∈ s.roster ∧ d ∈ s.roster
  · have hmono {x : ι} (hx : t.ended x = false) : s.ended x = false := by
      cases hb with
      | finish y hy => exact (update_true_eq_false hx).2
      | expelled y r hr => exact (update_true_eq_false hx).2
      | _ => exact hx
    have hi := h.introduced c d hne hold.1 hold.2 (hmono hce) (hmono hde)
    exact hi.imp (h.introduced_change hg hb hne hold.1 hold.2 hce hde)
      (h.introduced_change hg hb hne.symm hold.2 hold.1 hde hce)
  · cases hb with
    | admitted x r hr hn =>
        have hnew {y z : ι} (hyz : y ≠ z) (hy : y ∈ s.roster ++ [x]) (hz : z ∈ s.roster ++ [x])
            (hyn : y ∉ s.roster) : Introduced { s with
              up := Function.update s.up x r
              seen := Function.update s.seen x true
              roster := s.roster ++ [x]
              down := broadcast (push s.down x .reply) (s.roster ++ [x]) (.update x) } z y := by
          have hyx : y = x := by simpa [hyn] using hy
          exact .inl (mem_broadcast_push.mpr (.inr (.inr ⟨hz, by rw [hyx]⟩)))
        by_cases hcr : c ∈ s.roster
        · exact .inl (hnew hne.symm hd hc (fun hdr => hold ⟨hcr, hdr⟩))
        · exact .inr (hnew hne hc hd hcr)
    | dismissed x r hr hn =>
        exact absurd ⟨List.mem_of_mem_erase hc, List.mem_of_mem_erase hd⟩ hold
    | _ => exact absurd ⟨hc, hd⟩ hold

end Ordered

theorem ordered_of_reaches {s : State ι} (h : Reaches (machine ι) Reliable s) : Ordered s := by
  refine Reaches.invariant ?_ ?_ h
  · rintro _ rfl
    exact ordered_initial
  · intro s a t hs hg he
    exact hs.change hg (change_of_step he)

def Quiet (s : State ι) : Prop :=
  (∀ c, s.up c = []) ∧ (∀ c, s.down c = []) ∧ ∀ a c, s.peer a c = 0

theorem Ordered.ended_of_quiet {s : State ι} {c : ι} (h : Ordered s) (hq : Quiet s)
    (hc : c ∈ s.roster) : s.ended c = false := by
  by_contra he
  have hl := h.ended c (by simpa using he)
  have hm := h.pending c hl (.inr hc)
  simp [hq.1 c] at hm

/-- Two clients on the roster know each other when nothing is on its way. -/
theorem known_of_quiet {s : State ι} (h : Reaches (machine ι) Reliable s) (hq : Quiet s) {c d : ι}
    (hne : c ≠ d) (hc : c ∈ s.roster) (hd : d ∈ s.roster) : d ∈ s.known c := by
  have ho := ordered_of_reaches h
  have hi := ho.introduced c d hne hc hd (ho.ended_of_quiet hq hc) (ho.ended_of_quiet hq hd)
  simp only [Introduced, hq.2.1, hq.2.2, List.not_mem_nil, Nat.lt_irrefl, or_false, false_or] at hi
  exact hi.elim And.left And.right

end Hatch.Roster
