import Hatch.RosterOrdered

/-!
# Clients that know somebody who has left

A client forgets a peer when the server's Logout reaches it. That settles the
peers it was told of by the server, whose notices arrive in order. A greeting
comes by another way and may be overtaken by the Logout of its sender; if every
greeting is timely, a client knows only clients that are still on the roster once
nothing is on its way.
-/

namespace Hatch.Roster

open TransitionSystem

variable {ι : Type} [DecidableEq ι]

/-- A greeting is handled before the Logout of its sender, unless it changes nothing that
matters: the sender is known already, or the receiver has left the roster itself. -/
def Timely (s : State ι) : Action ι → Prop
  | .greet a c => a ∈ s.known c ∨ a ∈ s.roster ∨ .logout a ∈ s.down c ∨ c ∉ s.roster
  | _ => True

/-- What a client knows is on the roster or about to be forgotten. -/
structure Current (s : State ι) : Prop where
  nodup : ∀ c, (s.known c).Nodup
  dismissed : ∀ c, s.seen c = true → c ∉ s.roster → s.ended c = true ∨ .logout c ∈ s.down c
  announced : ∀ c d, c ∈ s.roster → s.ended c = false → .update d ∈ s.down c →
    d ∈ s.roster ∨ [.update d, .logout d].Sublist (s.down c)
  known : ∀ c d, c ∈ s.roster → s.ended c = false → d ∈ s.known c →
    d ∈ s.roster ∨ .logout d ∈ s.down c

omit [DecidableEq ι] in
theorem current_initial : Current (initial : State ι) := by
  constructor <;> simp [initial]

section Pipes

variable {down : ι → List (Notice ι)} {known : ι → List ι} {c d x : ι} {l : List ι}
  {k n m : Notice ι} {r : List (Notice ι)}

theorem sublist_broadcast_push : (down x).Sublist (broadcast (push down c k) l n x) := by
  rw [broadcast_push_apply, List.append_assoc]
  exact List.sublist_append_left _ _

theorem nodup_push (h : ∀ x, (known x).Nodup) (hd : d ∉ known c) (x : ι) :
    (push known c d x).Nodup := by
  by_cases hx : x = c
  · subst hx
    rw [push, Function.update_self]
    exact nodup_concat (h x) hd
  · simpa [push, hx] using h x

end Pipes

section Current

variable {s t : State ι} {c d : ι} (hs : Safe s) (h : Current s)
include hs h

theorem Current.announced_pop {m : Notice ι} {r : List (Notice ι)} (hr : s.down c = m :: r)
    (x y : ι) (hx : x ∈ s.roster) (he : s.ended x = false)
    (hu : .update y ∈ Function.update s.down c r x) :
    y ∈ s.roster ∨ [.update y, .logout y].Sublist (Function.update s.down c r x) := by
  have hold := h.announced x y hx he (mem_of_mem_update (by simp [hr]) hu)
  by_cases hxc : x = c
  · subst hxc
    rw [Function.update_self] at hu ⊢
    refine hold.imp id (fun hsub => ?_)
    rw [hr] at hsub
    cases hsub with
    | cons _ hsub => exact hsub
    | cons_cons _ hsub =>
        have hone := hs.single x y
        rw [hr, List.count_cons_self] at hone
        exact absurd hu (List.count_eq_zero.mp (by omega))
  · rwa [Function.update_of_ne hxc]

/-- Hearing anything but a Logout. -/
theorem Current.hear {m : Notice ι} {r : List (Notice ι)} (hr : s.down c = m :: r)
    (hm : ∀ d, m ≠ .logout d) : Current { s with down := Function.update s.down c r } := by
  have hpop {x y : ι} (hy : .logout y ∈ s.down x) : .logout y ∈ Function.update s.down c r x :=
    mem_pop hr hy (fun _ => (hm y).symm)
  exact {
    nodup := h.nodup
    dismissed := fun x hx hn => (h.dismissed x hx hn).imp id hpop
    announced := h.announced_pop hs hr
    known := fun x y hx he hk => (h.known x y hx he hk).imp id hpop }

theorem Current.change_admitted {r : List Request} (hr : s.up c = .login :: r) :
    Current { s with
      up := Function.update s.up c r
      seen := Function.update s.seen c true
      roster := s.roster ++ [c]
      down := broadcast (push s.down c .reply) (s.roster ++ [c]) (.update c) } := by
  have hsc : s.seen c = false := (hs.login c (by simp [hr])).2
  have hroster {x : ι} (hx : x ∈ s.roster ++ [c]) (hsx : s.seen x = true) : x ∈ s.roster := by
    refine (List.mem_append.mp hx).resolve_right (fun hxc => ?_)
    rw [List.mem_singleton.mp hxc] at hsx
    simp [hsc] at hsx
  refine ⟨h.nodup, ?_, ?_, ?_⟩
  · intro x hx hn
    have hn' : x ∉ s.roster ∧ x ≠ c := by simpa using hn
    have hx' := (update_true_iff.mp hx).resolve_left hn'.2
    exact (h.dismissed x hx' hn'.1).imp id (sublist_broadcast_push.subset ·)
  · intro x y hx he hu
    rcases mem_broadcast_push.mp hu with hu | ⟨_, hu⟩ | ⟨_, hu⟩
    · have hold := h.announced x y (hroster hx (hs.down x _ hu)) he hu
      exact hold.imp (List.mem_append_left _) (·.trans sublist_broadcast_push)
    · cases hu
    · cases hu
      simp
  · intro x y hx he hk
    have hold := h.known x y (hroster hx (hs.toBasic.known x y hk).1) he hk
    exact hold.imp (List.mem_append_left _) (sublist_broadcast_push.subset ·)

theorem Current.change_dismissed {r : List Request} :
    Current { s with
      up := Function.update s.up c r
      roster := s.roster.erase c
      down := broadcast (push s.down c (.logout c)) (s.roster.erase c) (.logout c) } := by
  have hlogout {x : ι} (hx : x ∈ s.roster.erase c) : .logout c ∈
      broadcast (push s.down c (.logout c)) (s.roster.erase c) (.logout c) x :=
    mem_broadcast_push.mpr (.inr (.inr ⟨hx, rfl⟩))
  refine ⟨h.nodup, ?_, ?_, ?_⟩
  · intro x hx hn
    by_cases hxc : x = c
    · exact .inr (mem_broadcast_push.mpr (.inr (.inl ⟨hxc, by rw [hxc]⟩)))
    · have hn' : x ∉ s.roster := fun hm => hn ((List.mem_erase_of_ne hxc).mpr hm)
      exact (h.dismissed x hx hn').imp id (sublist_broadcast_push.subset ·)
  · intro x y hx he hu
    have hu' : .update y ∈ s.down x := by simpa [mem_broadcast_push] using hu
    rcases h.announced x y (List.mem_of_mem_erase hx) he hu' with hy | hy
    · by_cases hyc : y = c
      · subst hyc
        have hxc : x ≠ y := fun hxy => hs.nodup.not_mem_erase (hxy ▸ hx)
        have hsub := (List.singleton_sublist.mpr hu').append (List.Sublist.refl [.logout y])
        right
        simpa [broadcast, hx, push, hxc] using hsub
      · exact .inl ((List.mem_erase_of_ne hyc).mpr hy)
    · exact .inr (hy.trans sublist_broadcast_push)
  · intro x y hx he hk
    rcases h.known x y (List.mem_of_mem_erase hx) he hk with hy | hy
    · by_cases hyc : y = c
      · exact .inr (hyc ▸ hlogout hx)
      · exact .inl ((List.mem_erase_of_ne hyc).mpr hy)
    · exact .inr (sublist_broadcast_push.subset hy)

theorem Current.change_newcomer {r : List (Notice ι)} (hr : s.down c = .update d :: r)
    (hk : d ∉ s.known c) :
    Current { s with
      down := Function.update s.down c r
      known := push s.known c d
      peer := setPeer s.peer c d (s.peer c d + 1) } := by
  have hh := h.hear hs hr (by simp)
  refine { hh with nodup := nodup_push h.nodup hk, known := ?_ }
  intro x y hx he hy
  rcases mem_push.mp hy with hy | ⟨rfl, rfl⟩
  · exact hh.known x y hx he hy
  · refine (h.announced x y hx he (by simp [hr])).imp id (fun hsub => ?_)
    rw [hr] at hsub
    have hm : .logout y ∈ r := by
      cases hsub with
      | cons _ hsub => exact hsub.subset (by simp)
      | cons_cons _ hsub => exact hsub.subset (by simp)
    simpa using hm

theorem Current.change_expelled {r : List (Notice ι)} (hr : s.down c = .logout c :: r) :
    Current { s with
      down := Function.update s.down c r
      status := Function.update s.status c .null
      ended := Function.update s.ended c true } := by
  have hpop {x y : ι} (hx : x ≠ c) (hy : .logout y ∈ s.down x) :
      .logout y ∈ Function.update s.down c r x := mem_pop hr hy (fun he => absurd he hx)
  refine ⟨h.nodup, ?_, ?_, ?_⟩
  · intro x hx hn
    by_cases hxc : x = c
    · exact .inl (update_true_iff.mpr (.inl hxc))
    · exact (h.dismissed x hx hn).imp update_true_of (hpop hxc)
  · intro x y hx he hu
    exact h.announced_pop hs hr x y hx (update_true_eq_false he).2 hu
  · intro x y hx he hk
    obtain ⟨hxc, he⟩ := update_true_eq_false he
    exact (h.known x y hx he hk).imp id (hpop hxc)

theorem Current.change_parted {r : List (Notice ι)} (hr : s.down c = .logout d :: r)
    (hd : d ≠ c) :
    Current { s with
      down := Function.update s.down c r
      known := Function.update s.known c ((s.known c).erase d) } := by
  refine ⟨?_, ?_, h.announced_pop hs hr, ?_⟩
  · intro x
    by_cases hx : x = c
    · subst hx
      simpa using (h.nodup x).erase d
    · simpa [hx] using h.nodup x
  · intro x hx hn
    refine (h.dismissed x hx hn).imp id (fun hm => mem_pop hr hm ?_)
    rintro rfl
    simpa using hd.symm
  · intro x y hx he hk
    have hold := h.known x y hx he (mem_of_mem_update List.erase_subset hk)
    refine hold.imp id (fun hm => mem_pop hr hm ?_)
    rintro rfl hyd
    obtain rfl : y = d := by simpa using hyd
    exact (h.nodup x).not_mem_erase (by simpa using hk)

theorem Current.change {b : Action ι} (hg : Reliable s b ∧ Timely s b) (hb : Change s b t) :
    Current t := by
  cases hb with
  | login c hc => exact { h with }
  | logout c hc => exact { h with }
  | finish c hc =>
      exact { h with
        dismissed := fun x hx hn => (h.dismissed x hx hn).imp update_true_of id
        announced := fun x y hx he => h.announced x y hx (update_true_eq_false he).2
        known := fun x y hx he => h.known x y hx (update_true_eq_false he).2 }
  | refused c r hr hn =>
      exact absurd (hs.roster c hn) (by simp [(hs.login c (by simp [hr])).2])
  | admitted c r hr hn => exact h.change_admitted hs hr
  | dismissed c r hr hn => exact h.change_dismissed hs
  | absent c r hr hn => exact { h with }
  | replied c r hr => exact { h.hear hs hr (by simp) with }
  | failed c r hr => exact { h.hear hs hr (by simp) with }
  | confirmed c r hr hst => exact { h.hear hs hr (by simp) with }
  | mistaken c d r hr hst hd => exact { h.hear hs hr (by simp) with }
  | newcomer c d r hr hst hd hk => exact h.change_newcomer hs hr hk
  | stale c d r hr hst hd => exact h.hear hs hr (by simp)
  | expelled c r hr => exact h.change_expelled hs hr
  | parted c d r hr hd => exact h.change_parted hs hr hd
  | greeted a c hp ha hk =>
      refine { h with nodup := nodup_push h.nodup hk, known := ?_ }
      intro x y hx he hy
      rcases mem_push.mp hy with hy | ⟨rfl, rfl⟩
      · exact h.known x y hx he hy
      · rcases hg.2 with hm | hm | hm | hm
        · exact absurd hm hk
        · exact .inl hm
        · exact .inr hm
        · exact absurd hx hm
  | regreeted a c hp ha => exact { h with }
  | disturbed up down peer hu hd hp =>
      have hdown {x : ι} (he : s.ended x = false) : down x = s.down x := (hg.1.2 x he).1
      refine ⟨h.nodup, ?_, ?_, ?_⟩
      · intro x hx hn
        by_cases he : s.ended x = true
        · exact .inl he
        · have he' : s.ended x = false := by simpa using he
          simpa only [hdown he'] using h.dismissed x hx hn
      · intro x y hx he
        simpa only [hdown he] using h.announced x y hx he
      · intro x y hx he
        simpa only [hdown he] using h.known x y hx he

end Current

theorem current_of_reaches {s : State ι}
    (h : Reaches (machine ι) (fun s a => Reliable s a ∧ Timely s a) s) : Safe s ∧ Current s := by
  refine Reaches.invariant (I := fun s => Safe s ∧ Current s) ?_ ?_ h
  · rintro _ rfl
    exact ⟨ordered_initial.toSafe, current_initial⟩
  · rintro s a t ⟨hs, hc⟩ hg he
    have hb := change_of_step he
    exact ⟨hs.change hg.1 hb, hc.change hs hg hb⟩

/-- With timely greetings, whoever a client knows is on the roster when nothing is on its
way. -/
theorem roster_of_known {s : State ι}
    (h : Reaches (machine ι) (fun s a => Reliable s a ∧ Timely s a) s) (hq : Quiet s) {c d : ι}
    (he : s.ended c = false) (hd : d ∈ s.known c) : d ∈ s.roster := by
  obtain ⟨hs, hc⟩ := current_of_reaches h
  have hroster : c ∈ s.roster := by
    by_contra hn
    rcases hc.dismissed c (hs.toBasic.known c d hd).1 hn with hce | hm
    · simp [he] at hce
    · simp [hq.2.1 c] at hm
  refine (hc.known c d hroster he hd).resolve_right (fun hm => ?_)
  simp [hq.2.1 c] at hm

end Hatch.Roster
