import Mathlib.Data.List.Perm.Subperm
import Mathlib.Logic.Function.Basic
import Hatch.TransitionSystem

/-!
# The roster protocol

What the chat program is for, without its bytes. A server keeps the roster of the
clients that are logged in; a client keeps the set of peers it knows. Clients send
requests up to the server, the server sends notices down to the clients, and a
client that learns of a newcomer greets it directly. The three kinds of pipes are
independent of each other. `disturb` is the unreliable network: it may reorder
and lose anything; a reliable one disturbs only what is on the way to a client
that has ended.
-/

namespace Hatch.Roster

open TransitionSystem

inductive Request
  | login | logout
  deriving DecidableEq

inductive Notice (ι : Type)
  | reply | error | update (d : ι) | logout (d : ι)
  deriving DecidableEq

inductive Status
  | online | login | null
  deriving DecidableEq

/-- `called` and `left` say that a client has asked to log in and to log out, `seen` that
the server has ever admitted it, and `peer a c` counts the greetings from `a` to `c`. -/
structure State (ι : Type) where
  called : ι → Bool
  left : ι → Bool
  ended : ι → Bool
  seen : ι → Bool
  roster : List ι
  status : ι → Status
  known : ι → List ι
  up : ι → List Request
  down : ι → List (Notice ι)
  peer : ι → ι → ℕ

inductive Action (ι : Type)
  | login (c : ι)
  | logout (c : ι)
  | finish (c : ι)
  | serve (c : ι)
  | hear (c : ι)
  | greet (a c : ι)
  | disturb (up : ι → List Request) (down : ι → List (Notice ι)) (peer : ι → ι → ℕ)

variable {ι : Type} [DecidableEq ι]

def initial : State ι where
  called _ := false
  left _ := false
  ended _ := false
  seen _ := false
  roster := []
  status _ := .online
  known _ := []
  up _ := []
  down _ := []
  peer _ _ := 0

def push {α : Type} (pipe : ι → List α) (c : ι) (m : α) : ι → List α :=
  Function.update pipe c (pipe c ++ [m])

def broadcast (down : ι → List (Notice ι)) (l : List ι) (m : Notice ι) : ι → List (Notice ι) :=
  fun d => if d ∈ l then down d ++ [m] else down d

def State.serve (s : State ι) (c : ι) : Request → State ι
  | .login =>
      if c ∈ s.roster then { s with down := push s.down c .error }
      else { s with
        seen := Function.update s.seen c true
        roster := s.roster ++ [c]
        down := broadcast (push s.down c .reply) (s.roster ++ [c]) (.update c) }
  | .logout =>
      if c ∈ s.roster then { s with
        roster := s.roster.erase c
        down := broadcast (push s.down c (.logout c)) (s.roster.erase c) (.logout c) }
      else s

def setPeer (peer : ι → ι → ℕ) (a c : ι) (n : ℕ) : ι → ι → ℕ :=
  Function.update peer a (Function.update (peer a) c n)

def State.meet (s : State ι) (c d : ι) : State ι :=
  { s with known := push s.known c d }

def State.hear (s : State ι) (c : ι) : Notice ι → State ι
  | .reply => { s with status := Function.update s.status c .login }
  | .error => { s with status := Function.update s.status c .null }
  | .update d =>
      match s.status c with
      | .login =>
          { s with status := Function.update s.status c (if d = c then .online else .null) }
      | .online =>
          if d = c ∨ d ∈ s.known c then s
          else { s.meet c d with peer := setPeer s.peer c d (s.peer c d + 1) }
      | .null => s
  | .logout d =>
      if d = c then { s with
        status := Function.update s.status c .null
        ended := Function.update s.ended c true }
      else { s with known := Function.update s.known c ((s.known c).erase d) }

def State.greet (s : State ι) (a c : ι) : State ι :=
  if a = c ∨ a ∈ s.known c then s else s.meet c a

open Classical in
noncomputable def step (s : State ι) : Action ι → Option (State ι)
  | .login c =>
      if s.called c then none
      else some { s with
        called := Function.update s.called c true
        up := push s.up c .login }
  | .logout c =>
      if s.called c then some { s with
        left := Function.update s.left c true
        up := push s.up c .logout }
      else none
  | .finish c =>
      if s.left c then some { s with ended := Function.update s.ended c true } else none
  | .serve c =>
      match s.up c with
      | [] => none
      | m :: r => some (State.serve { s with up := Function.update s.up c r } c m)
  | .hear c =>
      match s.down c with
      | [] => none
      | m :: r => some (State.hear { s with down := Function.update s.down c r } c m)
  | .greet a c =>
      if 0 < s.peer a c then
        some (State.greet { s with peer := setPeer s.peer a c (s.peer a c - 1) } a c)
      else none
  | .disturb up down peer =>
      if (∀ c, (up c).Subperm (s.up c)) ∧ (∀ c, (down c).Subperm (s.down c)) ∧
          ∀ a c, peer a c ≤ s.peer a c then
        some { s with up := up, down := down, peer := peer }
      else none

noncomputable def machine (ι : Type) [DecidableEq ι] : Machine (State ι) (Action ι) where
  init s := s = initial
  step := step

/-- The steps of a reliable network. -/
def Reliable (s : State ι) : Action ι → Prop
  | .disturb up down peer =>
      up = s.up ∧ ∀ c, s.ended c = false → down c = s.down c ∧ ∀ a, peer a c = s.peer a c
  | _ => True

inductive Change (s : State ι) : Action ι → State ι → Prop
  | login (c : ι) (hc : s.called c = false) :
      Change s (.login c) { s with
        called := Function.update s.called c true
        up := push s.up c .login }
  | logout (c : ι) (hc : s.called c = true) :
      Change s (.logout c) { s with
        left := Function.update s.left c true
        up := push s.up c .logout }
  | finish (c : ι) (hc : s.left c = true) :
      Change s (.finish c) { s with ended := Function.update s.ended c true }
  | refused (c : ι) (r : List Request) (hr : s.up c = .login :: r) (hn : c ∈ s.roster) :
      Change s (.serve c) { s with
        up := Function.update s.up c r
        down := push s.down c .error }
  | admitted (c : ι) (r : List Request) (hr : s.up c = .login :: r) (hn : c ∉ s.roster) :
      Change s (.serve c) { s with
        up := Function.update s.up c r
        seen := Function.update s.seen c true
        roster := s.roster ++ [c]
        down := broadcast (push s.down c .reply) (s.roster ++ [c]) (.update c) }
  | dismissed (c : ι) (r : List Request) (hr : s.up c = .logout :: r) (hn : c ∈ s.roster) :
      Change s (.serve c) { s with
        up := Function.update s.up c r
        roster := s.roster.erase c
        down := broadcast (push s.down c (.logout c)) (s.roster.erase c) (.logout c) }
  | absent (c : ι) (r : List Request) (hr : s.up c = .logout :: r) (hn : c ∉ s.roster) :
      Change s (.serve c) { s with up := Function.update s.up c r }
  | replied (c : ι) (r : List (Notice ι)) (hr : s.down c = .reply :: r) :
      Change s (.hear c) { s with
        down := Function.update s.down c r
        status := Function.update s.status c .login }
  | failed (c : ι) (r : List (Notice ι)) (hr : s.down c = .error :: r) :
      Change s (.hear c) { s with
        down := Function.update s.down c r
        status := Function.update s.status c .null }
  | confirmed (c : ι) (r : List (Notice ι)) (hr : s.down c = .update c :: r)
      (hs : s.status c = .login) :
      Change s (.hear c) { s with
        down := Function.update s.down c r
        status := Function.update s.status c .online }
  | mistaken (c d : ι) (r : List (Notice ι)) (hr : s.down c = .update d :: r)
      (hs : s.status c = .login) (hd : d ≠ c) :
      Change s (.hear c) { s with
        down := Function.update s.down c r
        status := Function.update s.status c .null }
  | newcomer (c d : ι) (r : List (Notice ι)) (hr : s.down c = .update d :: r)
      (hs : s.status c = .online) (hd : d ≠ c) (hk : d ∉ s.known c) :
      Change s (.hear c) { s with
        down := Function.update s.down c r
        known := push s.known c d
        peer := setPeer s.peer c d (s.peer c d + 1) }
  | stale (c d : ι) (r : List (Notice ι)) (hr : s.down c = .update d :: r)
      (hs : s.status c ≠ .login) (hd : s.status c = .online → d = c ∨ d ∈ s.known c) :
      Change s (.hear c) { s with down := Function.update s.down c r }
  | expelled (c : ι) (r : List (Notice ι)) (hr : s.down c = .logout c :: r) :
      Change s (.hear c) { s with
        down := Function.update s.down c r
        status := Function.update s.status c .null
        ended := Function.update s.ended c true }
  | parted (c d : ι) (r : List (Notice ι)) (hr : s.down c = .logout d :: r) (hd : d ≠ c) :
      Change s (.hear c) { s with
        down := Function.update s.down c r
        known := Function.update s.known c ((s.known c).erase d) }
  | greeted (a c : ι) (hp : 0 < s.peer a c) (ha : a ≠ c) (hk : a ∉ s.known c) :
      Change s (.greet a c) { s with
        peer := setPeer s.peer a c (s.peer a c - 1)
        known := push s.known c a }
  | regreeted (a c : ι) (hp : 0 < s.peer a c) (ha : a = c ∨ a ∈ s.known c) :
      Change s (.greet a c) { s with peer := setPeer s.peer a c (s.peer a c - 1) }
  | disturbed (up : ι → List Request) (down : ι → List (Notice ι)) (peer : ι → ι → ℕ)
      (hu : ∀ c, (up c).Subperm (s.up c)) (hd : ∀ c, (down c).Subperm (s.down c))
      (hp : ∀ a c, peer a c ≤ s.peer a c) :
      Change s (.disturb up down peer) { s with up := up, down := down, peer := peer }

section Inversion

variable {s t : State ι} {c : ι}

theorem change_of_serve (h : step s (.serve c) = some t) : Change s (.serve c) t := by
  simp only [step] at h
  split at h
  · cases h
  · rename_i m r hr
    obtain rfl := Option.some.inj h
    cases m with
    | login =>
        by_cases hn : c ∈ s.roster
        · simpa only [State.serve, hn, if_true] using Change.refused c r hr hn
        · simpa only [State.serve, hn, if_false] using Change.admitted c r hr hn
    | logout =>
        by_cases hn : c ∈ s.roster
        · simpa only [State.serve, hn, if_true] using Change.dismissed c r hr hn
        · simpa only [State.serve, hn, if_false] using Change.absent c r hr hn

theorem change_of_update {d : ι} {r : List (Notice ι)} (hr : s.down c = .update d :: r) :
    Change s (.hear c)
      (State.hear { s with down := Function.update s.down c r } c (.update d)) := by
  cases hs : s.status c with
  | login =>
      by_cases hd : d = c
      · subst hd
        simpa only [State.hear, hs, if_true] using Change.confirmed d r hr hs
      · simpa only [State.hear, hs, hd, if_false] using Change.mistaken c d r hr hs hd
  | online =>
      by_cases hd : d = c ∨ d ∈ s.known c
      · simpa only [State.hear, hs, hd, if_true] using
          Change.stale c d r hr (by simp [hs]) (fun _ => hd)
      · have hd' := not_or.mp hd
        simpa only [State.hear, State.meet, hs, hd, if_false] using
          Change.newcomer c d r hr hs hd'.1 hd'.2
  | null => simpa only [State.hear, hs] using Change.stale c d r hr (by simp [hs]) (by simp [hs])

theorem change_of_hear (h : step s (.hear c) = some t) : Change s (.hear c) t := by
  simp only [step] at h
  split at h
  · cases h
  · rename_i m r hr
    obtain rfl := Option.some.inj h
    cases m with
    | reply => exact .replied c r hr
    | error => exact .failed c r hr
    | update d => exact change_of_update hr
    | logout d =>
        by_cases hd : d = c
        · subst hd
          simpa only [State.hear, if_true] using Change.expelled d r hr
        · simpa only [State.hear, hd, if_false] using Change.parted c d r hr hd

theorem change_of_greet {a : ι} (h : step s (.greet a c) = some t) : Change s (.greet a c) t := by
  simp only [step, Option.ite_none_right_eq_some, Option.some.injEq] at h
  obtain ⟨hp, rfl⟩ := h
  by_cases ha : a = c ∨ a ∈ s.known c
  · simpa only [State.greet, ha, if_true] using Change.regreeted a c hp ha
  · have ha' := not_or.mp ha
    simpa only [State.greet, State.meet, ha, if_false] using Change.greeted a c hp ha'.1 ha'.2

theorem change_of_step {a : Action ι} (h : step s a = some t) : Change s a t := by
  cases a with
  | login c =>
      simp only [step, Option.ite_none_left_eq_some, Option.some.injEq] at h
      obtain ⟨hc, rfl⟩ := h
      exact .login c (by simpa using hc)
  | logout c =>
      simp only [step, Option.ite_none_right_eq_some, Option.some.injEq] at h
      obtain ⟨hc, rfl⟩ := h
      exact .logout c hc
  | finish c =>
      simp only [step, Option.ite_none_right_eq_some, Option.some.injEq] at h
      obtain ⟨hc, rfl⟩ := h
      exact .finish c hc
  | serve c => exact change_of_serve h
  | hear c => exact change_of_hear h
  | greet a c => exact change_of_greet h
  | disturb up down peer =>
      simp only [step, Option.ite_none_right_eq_some, Option.some.injEq] at h
      obtain ⟨⟨hu, hd, hp⟩, rfl⟩ := h
      exact .disturbed up down peer hu hd hp

/-- Each of these changes is the step of its action. -/
theorem Change.step {a : Action ι} (h : Change s a t) : step s a = some t := by
  cases h with
  | login c hc => simp [Roster.step, hc]
  | logout c hc => simp [Roster.step, hc]
  | finish c hc => simp [Roster.step, hc]
  | refused c r hr hn => simp [Roster.step, State.serve, hr, hn]
  | admitted c r hr hn => simp [Roster.step, State.serve, hr, hn]
  | dismissed c r hr hn => simp [Roster.step, State.serve, hr, hn]
  | absent c r hr hn => simp [Roster.step, State.serve, hr, hn]
  | replied c r hr => simp [Roster.step, State.hear, hr]
  | failed c r hr => simp [Roster.step, State.hear, hr]
  | confirmed c r hr hs => simp [Roster.step, State.hear, hr, hs]
  | mistaken c d r hr hs hd => simp [Roster.step, State.hear, hr, hs, hd]
  | newcomer c d r hr hs hd hk => simp [Roster.step, State.hear, State.meet, hr, hs, hd, hk]
  | stale c d r hr hs hd =>
      cases hst : s.status c with
      | online => simp [Roster.step, State.hear, hr, hst, hd hst]
      | login => exact absurd hst hs
      | null => simp [Roster.step, State.hear, hr, hst]
  | expelled c r hr => simp [Roster.step, State.hear, hr]
  | parted c d r hr hd => simp [Roster.step, State.hear, hr, hd]
  | greeted a c hp ha hk => simp [Roster.step, State.greet, State.meet, hp, ha, hk]
  | regreeted a c hp ha => simp [Roster.step, State.greet, hp, ha]
  | disturbed up down peer hu hd hp => simp [Roster.step, hu, hd, hp]

end Inversion

section Pipes

variable {α : Type} {pipe : ι → List α} {down : ι → List (Notice ι)} {c x : ι} {l : List ι}
  {m y : α} {r : List α} {n k : Notice ι} {f : ι → Bool}

theorem update_true_iff : Function.update f c true x = true ↔ x = c ∨ f x = true := by
  by_cases h : x = c
  · simp [h]
  · simp [h]

theorem update_true_of (h : f x = true) : Function.update f c true x = true :=
  update_true_iff.mpr (.inr h)

theorem update_true_eq_false (h : Function.update f c true x = false) : x ≠ c ∧ f x = false := by
  by_cases hx : x = c
  · simp [hx] at h
  · exact ⟨hx, by simpa [hx] using h⟩

theorem nodup_concat {l : List α} (h : l.Nodup) (hm : m ∉ l) : (l ++ [m]).Nodup := by
  refine List.nodup_append.mpr ⟨h, List.pairwise_singleton _ _, ?_⟩
  intro x hx z hz he
  exact hm (List.mem_singleton.mp hz ▸ he ▸ hx)

theorem push_apply : push pipe c m x = pipe x ++ if x = c then [m] else [] := by
  by_cases h : x = c
  · subst h
    simp [push]
  · simp [push, h]

theorem broadcast_push_apply : broadcast (push down c k) l n x =
    down x ++ (if x = c then [k] else []) ++ if x ∈ l then [n] else [] := by
  by_cases h : x ∈ l
  · simp [broadcast, h, push_apply]
  · simp [broadcast, h, push_apply]

theorem mem_push : y ∈ push pipe c m x ↔ y ∈ pipe x ∨ x = c ∧ y = m := by
  by_cases h : x = c
  · simp [push_apply, h]
  · simp [push_apply, h]

theorem mem_broadcast_push {k' : Notice ι} :
    k ∈ broadcast (push down c k') l n x ↔ k ∈ down x ∨ x = c ∧ k = k' ∨ x ∈ l ∧ k = n := by
  rw [broadcast_push_apply, List.mem_append, List.mem_append, or_assoc]
  by_cases hc : x = c <;> by_cases hl : x ∈ l <;> simp [hc, hl]

theorem setPeer_apply {peer : ι → ι → ℕ} {a z : ι} {n : ℕ} :
    setPeer peer a c n z x = if z = a ∧ x = c then n else peer z x := by
  by_cases hz : z = a
  · subst hz
    by_cases hx : x = c
    · simp [setPeer, hx]
    · simp [setPeer, hx]
  · simp [setPeer, hz]

theorem lt_setPeer {peer : ι → ι → ℕ} {a z : ι} {n k : ℕ} (h : k < setPeer peer a c n z x) :
    z = a ∧ x = c ∨ k < peer z x := by
  rw [setPeer_apply] at h
  split_ifs at h with he
  · exact .inl he
  · exact .inr h

theorem mem_of_mem_update (hr : r ⊆ pipe c) (hy : y ∈ Function.update pipe c r x) : y ∈ pipe x := by
  by_cases hx : x = c
  · subst hx
    rw [Function.update_self] at hy
    exact hr hy
  · rwa [Function.update_of_ne hx] at hy

theorem pop_subperm (hr : pipe c = m :: r) (x : ι) :
    (Function.update pipe c r x).Subperm (pipe x) := by
  by_cases hx : x = c
  · subst hx
    rw [Function.update_self, hr]
    exact (List.sublist_cons_self m r).subperm
  · rw [Function.update_of_ne hx]

end Pipes

/-- What holds whatever the network does. A client is admitted at most once, only an
admitted client is spoken to or of, and only a client that has asked for it is logged out. -/
structure Basic (s : State ι) : Prop where
  nodup : s.roster.Nodup
  called : ∀ c, s.seen c = true → s.called c = true
  roster : ∀ c ∈ s.roster, s.seen c = true
  down : ∀ c, ∀ m ∈ s.down c, s.seen c = true
  update : ∀ c d, .update d ∈ s.down c → s.seen d = true
  peer : ∀ a c, 0 < s.peer a c → s.seen a = true ∧ s.seen c = true
  known : ∀ c, ∀ d ∈ s.known c, s.seen c = true ∧ s.seen d = true
  status : ∀ c, s.status c ≠ .online → s.seen c = true
  once : ∀ c, (s.up c).count .login ≤ 1
  login : ∀ c, .login ∈ s.up c → s.called c = true ∧ s.seen c = false
  request : ∀ c, .logout ∈ s.up c → s.left c = true
  logout : ∀ c d, .logout d ∈ s.down c → s.left d = true
  error : ∀ c, .error ∉ s.down c
  left : ∀ c, s.left c = true → s.called c = true
  ended : ∀ c, s.ended c = true → s.left c = true

omit [DecidableEq ι] in
theorem basic_initial : Basic (initial : State ι) := by
  constructor <;> simp [initial]

section Basic

omit [DecidableEq ι]

variable {s : State ι} {c : ι}

theorem Basic.seen_of_head {m : Notice ι} {r : List (Notice ι)} (h : Basic s)
    (hr : s.down c = m :: r) : s.seen c = true :=
  h.down c m (by simp [hr])

theorem Basic.up_eq_nil (h : Basic s) (hc : s.called c = false) : s.up c = [] := by
  apply List.eq_nil_iff_forall_not_mem.mpr
  intro m hm
  cases m with
  | login => exact absurd (h.login c hm).1 (by simp [hc])
  | logout => exact absurd (h.left c (h.request c hm)) (by simp [hc])

/-- Losing and reordering messages does no harm. -/
theorem Basic.shrink {up : ι → List Request} {down : ι → List (Notice ι)} {peer : ι → ι → ℕ}
    (h : Basic s) (hu : ∀ c, (up c).Subperm (s.up c)) (hd : ∀ c, (down c).Subperm (s.down c))
    (hp : ∀ a c, peer a c ≤ s.peer a c) :
    Basic { s with up := up, down := down, peer := peer } := by
  exact { h with
    down := fun c m hm => h.down c m ((hd c).subset hm)
    update := fun c d hm => h.update c d ((hd c).subset hm)
    peer := fun a c hac => h.peer a c (Nat.lt_of_lt_of_le hac (hp a c))
    once := fun c => Nat.le_trans ((hu c).count_le _) (h.once c)
    login := fun c hm => h.login c ((hu c).subset hm)
    request := fun c hm => h.request c ((hu c).subset hm)
    logout := fun c d hm => h.logout c d ((hd c).subset hm)
    error := fun c hm => h.error c ((hd c).subset hm) }

end Basic

section Preserved

variable {s : State ι} {a c d : ι} (h : Basic s)
include h

theorem Basic.serve {m : Request} {r : List Request} (hr : s.up c = m :: r) :
    Basic { s with up := Function.update s.up c r } :=
  h.shrink (pop_subperm hr) (fun _ => .refl _) (fun _ _ => Nat.le_refl _)

theorem Basic.hear {m : Notice ι} {r : List (Notice ι)} (hr : s.down c = m :: r) :
    Basic { s with down := Function.update s.down c r } :=
  h.shrink (fun _ => .refl _) (pop_subperm hr) (fun _ _ => Nat.le_refl _)

theorem Basic.setStatus (st : Status) (hc : s.seen c = true) :
    Basic { s with status := Function.update s.status c st } := by
  refine { h with status := ?_ }
  intro x hx
  by_cases hxc : x = c
  · exact hxc ▸ hc
  · exact h.status x (by simpa [hxc] using hx)

theorem Basic.meet (hc : s.seen c = true) (hd : s.seen d = true) :
    Basic { s with known := push s.known c d } := by
  refine { h with known := ?_ }
  intro x y hy
  rcases mem_push.mp hy with hy | ⟨rfl, rfl⟩
  · exact h.known x y hy
  · exact ⟨hc, hd⟩

theorem Basic.setPeer {n : ℕ} (ha : s.seen a = true) (hc : s.seen c = true) :
    Basic { s with peer := setPeer s.peer a c n } := by
  refine { h with peer := ?_ }
  intro x y hxy
  rcases lt_setPeer hxy with ⟨rfl, rfl⟩ | hxy
  · exact ⟨ha, hc⟩
  · exact h.peer x y hxy

theorem Basic.change_login (hc : s.called c = false) :
    Basic { s with called := Function.update s.called c true, up := push s.up c .login } := by
  have hn := h.up_eq_nil hc
  have hf : s.seen c = false := by
    by_contra hs
    exact absurd (h.called c (by simpa using hs)) (by simp [hc])
  refine { h with called := ?_, once := ?_, login := ?_, request := ?_, left := ?_ }
  · exact fun x hx => update_true_of (h.called x hx)
  · intro x
    by_cases hx : x = c
    · simp [push, hx, hn]
    · simpa [push, hx] using h.once x
  · intro x hx
    rcases mem_push.mp hx with hx | ⟨rfl, _⟩
    · exact ⟨update_true_of (h.login x hx).1, (h.login x hx).2⟩
    · exact ⟨by simp, hf⟩
  · intro x hx
    rcases mem_push.mp hx with hx | ⟨_, hm⟩
    · exact h.request x hx
    · cases hm
  · exact fun x hx => update_true_of (h.left x hx)

theorem Basic.change_logout (hc : s.called c = true) :
    Basic { s with left := Function.update s.left c true, up := push s.up c .logout } := by
  refine { h with once := ?_, login := ?_, request := ?_, logout := ?_, left := ?_, ended := ?_ }
  · intro x
    by_cases hx : x = c
    · subst hx
      simpa [push] using h.once x
    · simpa [push, hx] using h.once x
  · intro x hx
    rcases mem_push.mp hx with hx | ⟨_, hm⟩
    · exact h.login x hx
    · cases hm
  · intro x hx
    rcases mem_push.mp hx with hx | ⟨rfl, _⟩
    · exact update_true_of (h.request x hx)
    · simp
  · exact fun x d hm => update_true_of (h.logout x d hm)
  · intro x hx
    rcases update_true_iff.mp hx with rfl | hx
    · exact hc
    · exact h.left x hx
  · exact fun x hx => update_true_of (h.ended x hx)

theorem Basic.change_admitted {r : List Request} (hr : s.up c = .login :: r) (hn : c ∉ s.roster) :
    Basic { s with
      up := Function.update s.up c r
      seen := Function.update s.seen c true
      roster := s.roster ++ [c]
      down := broadcast (push s.down c .reply) (s.roster ++ [c]) (.update c) } := by
  have hl := h.login c (by simp [hr])
  have hz : .login ∉ r := by
    have ho := h.once c
    rw [hr, List.count_cons_self] at ho
    exact List.count_eq_zero.mp (by omega)
  have hmono {x} (hx : s.seen x = true) : Function.update s.seen c true x = true :=
    update_true_of hx
  have hroster {x} (hx : x ∈ s.roster ++ [c]) : Function.update s.seen c true x = true := by
    rcases List.mem_append.mp hx with hx | hx
    · exact hmono (h.roster x hx)
    · simp [List.mem_singleton.mp hx]
  refine { h.serve hr with
    nodup := nodup_concat h.nodup hn
    called := ?_
    roster := ?_
    down := ?_
    update := ?_
    peer := ?_
    known := ?_
    status := ?_
    login := ?_
    logout := ?_
    error := ?_ }
  · intro x hx
    rcases update_true_iff.mp hx with rfl | hx
    · exact hl.1
    · exact h.called x hx
  · exact fun x hx => hroster hx
  · intro x m hm
    rcases mem_broadcast_push.mp hm with hm | ⟨rfl, _⟩ | ⟨hx, _⟩
    · exact hmono (h.down x m hm)
    · simp
    · exact hroster hx
  · intro x d hm
    rcases mem_broadcast_push.mp hm with hm | ⟨_, hm⟩ | ⟨_, hm⟩
    · exact hmono (h.update x d hm)
    · cases hm
    · cases hm
      simp
  · exact fun x y hxy => ⟨hmono (h.peer x y hxy).1, hmono (h.peer x y hxy).2⟩
  · exact fun x y hy => ⟨hmono (h.known x y hy).1, hmono (h.known x y hy).2⟩
  · exact fun x hx => hmono (h.status x hx)
  · intro x hx
    by_cases hxc : x = c
    · subst hxc
      exact absurd (by simpa using hx) hz
    · simpa [hxc] using h.login x (by simpa [hxc] using hx)
  · intro x d hm
    rcases mem_broadcast_push.mp hm with hm | ⟨_, hm⟩ | ⟨_, hm⟩
    · exact h.logout x d hm
    · cases hm
    · cases hm
  · intro x hm
    rcases mem_broadcast_push.mp hm with hm | ⟨_, hm⟩ | ⟨_, hm⟩
    · exact h.error x hm
    · cases hm
    · cases hm

theorem Basic.change_dismissed {r : List Request} (hr : s.up c = .logout :: r)
    (hn : c ∈ s.roster) :
    Basic { s with
      up := Function.update s.up c r
      roster := s.roster.erase c
      down := broadcast (push s.down c (.logout c)) (s.roster.erase c) (.logout c) } := by
  refine { h.serve hr with
    nodup := h.nodup.erase c
    roster := fun x hx => h.roster x (List.mem_of_mem_erase hx)
    down := ?_
    update := ?_
    logout := ?_
    error := ?_ }
  · intro x m hm
    rcases mem_broadcast_push.mp hm with hm | ⟨rfl, _⟩ | ⟨hx, _⟩
    · exact h.down x m hm
    · exact h.roster x hn
    · exact h.roster x (List.mem_of_mem_erase hx)
  · intro x d hm
    rcases mem_broadcast_push.mp hm with hm | ⟨_, hm⟩ | ⟨_, hm⟩
    · exact h.update x d hm
    · cases hm
    · cases hm
  · intro x d hm
    rcases mem_broadcast_push.mp hm with hm | ⟨_, hm⟩ | ⟨_, hm⟩
    · exact h.logout x d hm
    · cases hm
      exact h.request c (by simp [hr])
    · cases hm
      exact h.request c (by simp [hr])
  · intro x hm
    rcases mem_broadcast_push.mp hm with hm | ⟨_, hm⟩ | ⟨_, hm⟩
    · exact h.error x hm
    · cases hm
    · cases hm

theorem Basic.change {t : State ι} {b : Action ι} (hb : Change s b t) : Basic t := by
  cases hb with
  | login c hc => exact h.change_login hc
  | logout c hc => exact h.change_logout hc
  | finish c hc =>
      refine { h with ended := ?_ }
      intro x hx
      rcases update_true_iff.mp hx with rfl | hx
      · exact hc
      · exact h.ended x hx
  | refused c r hr hn =>
      exact absurd (h.roster c hn) (by simp [(h.login c (by simp [hr])).2])
  | admitted c r hr hn => exact h.change_admitted hr hn
  | dismissed c r hr hn => exact h.change_dismissed hr hn
  | absent c r hr hn => exact h.serve hr
  | replied c r hr => exact (h.hear hr).setStatus _ (h.seen_of_head hr)
  | failed c r hr => exact (h.hear hr).setStatus _ (h.seen_of_head hr)
  | confirmed c r hr hs => exact (h.hear hr).setStatus _ (h.seen_of_head hr)
  | mistaken c d r hr hs hd => exact (h.hear hr).setStatus _ (h.seen_of_head hr)
  | newcomer c d r hr hs hd hk =>
      have hc := h.seen_of_head hr
      have hd' := h.update c d (by simp [hr])
      exact ((h.hear hr).meet hc hd').setPeer hc hd'
  | stale c d r hr hs hd => exact h.hear hr
  | expelled c r hr =>
      refine { (h.hear hr).setStatus .null (h.seen_of_head hr) with ended := ?_ }
      intro x hx
      rcases update_true_iff.mp hx with rfl | hx
      · exact h.logout x x (by simp [hr])
      · exact h.ended x hx
  | parted c d r hr hd =>
      exact { h.hear hr with
        known := fun x y hy => h.known x y (mem_of_mem_update List.erase_subset hy) }
  | greeted a c hp ha hk =>
      have hac := h.peer a c hp
      exact (h.setPeer hac.1 hac.2).meet hac.2 hac.1
  | regreeted a c hp ha => exact h.setPeer (h.peer a c hp).1 (h.peer a c hp).2
  | disturbed up down peer hu hd hp => exact h.shrink hu hd hp

end Preserved

theorem basic_of_reaches {G : State ι → Action ι → Prop} {s : State ι}
    (h : Reaches (machine ι) G s) : Basic s := by
  refine Reaches.invariant ?_ ?_ h
  · rintro _ rfl
    exact basic_initial
  · intro s a t hs _ he
    exact hs.change (change_of_step he)

/-- No client that waits for its own announcement hears that of another. -/
def HearsOwn (s : State ι) : Action ι → Prop
  | .hear c => s.status c = .login → ∀ d, (s.down c).head? = some (.update d) → d = c
  | _ => True

theorem null_change {s t : State ι} {a : Action ι} (h : Basic s) (hg : HearsOwn s a)
    (hn : ∀ c, s.status c = .null → s.left c = true) (hs : Change s a t) (x : ι)
    (hx : t.status x = .null) : t.left x = true := by
  have hset {c : ι} {st : Status} (hst : st ≠ .null)
      (hx : Function.update s.status c st x = .null) : s.left x = true := by
    by_cases hc : x = c
    · rw [hc, Function.update_self] at hx
      exact absurd hx hst
    · exact hn x (by simpa [hc] using hx)
  cases hs with
  | logout c hc => exact update_true_of (hn x hx)
  | replied c r hr => exact hset (by simp) hx
  | failed c r hr => exact absurd (by simp [hr]) (h.error c)
  | confirmed c r hr hl => exact hset (by simp) hx
  | mistaken c d r hr hl hd => exact absurd (hg hl d (by simp [hr])) hd
  | expelled c r hr =>
      by_cases hc : x = c
      · subst hc
        exact h.logout x x (by simp [hr])
      · exact hn x (by simpa [hc] using hx)
  | _ => exact hn x hx

/-- Whatever the order of delivery, a client is set aside only after it has asked to leave. -/
theorem left_of_null {s : State ι} (h : Reaches (machine ι) HearsOwn s) (c : ι)
    (hc : s.status c = .null) : s.left c = true := by
  have hinv : Basic s ∧ ∀ c, s.status c = .null → s.left c = true := by
    refine Reaches.invariant (I := fun s => Basic s ∧ ∀ c, s.status c = .null → s.left c = true)
      ?_ ?_ h
    · rintro _ rfl
      exact ⟨basic_initial, by simp [initial]⟩
    · rintro s a t ⟨hb, hn⟩ hg he
      have hs := change_of_step he
      exact ⟨hb.change hs, null_change hb hg hn hs⟩
  exact hinv.2 c hc

end Hatch.Roster
