import Mathlib.Data.List.Perm.Basic
import Hatch.NetPipe
import Hatch.Roster

/-!
# The roster a system of processes shows

`ServerView` and `ClientView` read the abstract roster and the known peers off the
user lists of the processes, `RequestOf`, `NoticeOf` and `GreetingOf` say which
buffers stand for which abstract message, and `Flows` relates all pipes at once.
-/

namespace Hatch.Net

open ByteLayout FaultProgram Prog TransitionSystem

variable {ι : Type}

def Config.bytes (cfg : Config ι) (c : ι) : Bytes := (cfg.name c).bytes

def statusOf : Roster.Status → UserStatus
  | .online => .online
  | .login => .login
  | .null => .null

def EntryOf (cfg : Config ι) (u : UserInfo) (c : ι) : Prop :=
  u.name = cfg.bytes c ∧ (u.addr, u.port) = cfg.endpoint c

def ServerView (cfg : Config ι) (l : List UserInfo) (roster : List ι) : Prop :=
  ∃ u us, l = u :: us ∧ u.name = serverName ∧ List.Forall₂ (EntryOf cfg) us roster

/-- Entry 0 is the server's, entry 1 the client's own, and the others are its peers. -/
def ClientView (cfg : Config ι) (c : ι) (called : Bool) (st : Roster.Status) (known : List ι)
    (l : List UserInfo) : Prop :=
  ∃ u own us, l = u :: own :: us ∧ u.name = serverName ∧
    own.name = (if called then cfg.bytes c else clientInitName) ∧
    own.status = some (statusOf st) ∧ names us = known.map cfg.bytes

theorem Config.bytes_injective (cfg : Config ι) : Function.Injective cfg.bytes :=
  fun _ _ h => cfg.name_injective (UserName.ext h)

theorem Config.bytes_ne_server (cfg : Config ι) (c : ι) : serverName ≠ cfg.bytes c :=
  (cfg.name_ordinary c).1.symm

theorem eraseUser_cons_self {n : Bytes} {u : UserInfo} {l : List UserInfo} (h : u.name = n) :
    eraseUser n (u :: l) = l := by
  simp [eraseUser, userIndex, List.findIdx_cons, h]

section Views

variable {cfg : Config ι} {l us : List UserInfo} {roster known : List ι} {c d : ι}
  {u own : UserInfo} {st st' : Roster.Status} {called : Bool}

theorem names_of_entries (h : List.Forall₂ (EntryOf cfg) us roster) :
    names us = roster.map cfg.bytes := by
  induction h with
  | nil => rfl
  | cons hu _ ih => exact congrArg₂ List.cons hu.1 ih

theorem ServerView.mem_names (h : ServerView cfg l roster) :
    cfg.bytes c ∈ names l ↔ c ∈ roster := by
  obtain ⟨u, us, rfl, hu, hus⟩ := h
  change cfg.bytes c ∈ u.name :: names us ↔ _
  rw [names_of_entries hus, hu, List.mem_cons, List.mem_map_of_injective cfg.bytes_injective,
    or_iff_right (cfg.bytes_ne_server c).symm]

theorem ServerView.append (h : ServerView cfg l roster) (hu : EntryOf cfg u c) :
    ServerView cfg (l ++ [u]) (roster ++ [c]) := by
  obtain ⟨v, us, rfl, hv, hus⟩ := h
  exact ⟨v, us ++ [u], rfl, hv, List.rel_append hus (.cons hu .nil)⟩

theorem entries_erase [DecidableEq ι] (h : List.Forall₂ (EntryOf cfg) us roster) (c : ι) :
    List.Forall₂ (EntryOf cfg) (eraseUser (cfg.bytes c) us) (roster.erase c) := by
  induction h with
  | nil => exact .nil
  | @cons u d us ds hu hus ih =>
      by_cases hd : d = c
      · subst hd
        rw [eraseUser_cons_self hu.1, List.erase_cons_head]
        exact hus
      · have hne : u.name ≠ cfg.bytes c := fun he => hd (cfg.bytes_injective (hu.1.symm.trans he))
        rw [eraseUser_cons_of_ne hne, List.erase_cons_tail (by simpa using hd)]
        exact .cons hu ih

theorem ServerView.erase [DecidableEq ι] (h : ServerView cfg l roster) (c : ι) :
    ServerView cfg (eraseUser (cfg.bytes c) l) (roster.erase c) := by
  obtain ⟨v, us, rfl, hv, hus⟩ := h
  refine ⟨v, eraseUser (cfg.bytes c) us, ?_, hv, entries_erase hus c⟩
  exact eraseUser_cons_of_ne (hv ▸ cfg.bytes_ne_server c)

theorem ClientView.exists_own (h : ClientView cfg c called st known l) :
    ∃ own, l[1]? = some own ∧ own.name = (if called then cfg.bytes c else clientInitName) ∧
      own.status = some (statusOf st) := by
  obtain ⟨u, own, us, rfl, hu, ho, hs, hk⟩ := h
  exact ⟨own, rfl, ho, hs⟩

theorem ClientView.mem_names (h : ClientView cfg c true st known l) :
    cfg.bytes d ∈ names l ↔ d = c ∨ d ∈ known := by
  obtain ⟨u, own, us, rfl, hu, ho, hs, hk⟩ := h
  change cfg.bytes d ∈ u.name :: own.name :: names us ↔ _
  rw [hk, hu, ho, if_pos rfl, List.mem_cons, List.mem_cons,
    List.mem_map_of_injective cfg.bytes_injective, cfg.bytes_injective.eq_iff,
    or_iff_right (cfg.bytes_ne_server d).symm]

theorem ClientView.setStatus (h : ClientView cfg c called st known l) (hi : l[1]? = some own) :
    ClientView cfg c called st' known (l.set 1 { own with status := some (statusOf st') }) := by
  obtain ⟨u, v, us, rfl, hu, ho, hs, hk⟩ := h
  obtain rfl : v = own := by simpa using hi
  exact ⟨u, _, us, rfl, hu, ho, rfl, hk⟩

/-- The client takes its user name. -/
theorem ClientView.setName (h : ClientView cfg c called st known l) (hi : l[1]? = some own) :
    ClientView cfg c true st known (l.set 1 { own with name := cfg.bytes c }) := by
  obtain ⟨u, v, us, rfl, hu, ho, hs, hk⟩ := h
  obtain rfl : v = own := by simpa using hi
  exact ⟨u, _, us, rfl, hu, rfl, hs, hk⟩

theorem ClientView.append (h : ClientView cfg c called st known l) (hu : u.name = cfg.bytes d) :
    ClientView cfg c called st (known ++ [d]) (l ++ [u]) := by
  obtain ⟨v, own, us, rfl, hv, ho, hs, hk⟩ := h
  refine ⟨v, own, us ++ [u], rfl, hv, ho, hs, ?_⟩
  rw [names, List.map_append, List.map_append, ← hk]
  exact congrArg (names us ++ [·]) hu

theorem names_erase [DecidableEq ι] (h : names us = known.map cfg.bytes) (d : ι) :
    names (eraseUser (cfg.bytes d) us) = (known.erase d).map cfg.bytes := by
  induction known generalizing us with
  | nil =>
      obtain rfl : us = [] := List.map_eq_nil_iff.mp h
      rfl
  | cons e known ih =>
      obtain ⟨u, vs, rfl, hu, hvs⟩ := List.map_eq_cons_iff.mp h
      by_cases he : e = d
      · subst he
        rw [eraseUser_cons_self hu, List.erase_cons_head]
        exact hvs
      · have hne : u.name ≠ cfg.bytes d := fun hd => he (cfg.bytes_injective (hu.symm.trans hd))
        rw [eraseUser_cons_of_ne hne, List.erase_cons_tail (by simpa using he)]
        exact congrArg₂ List.cons hu (ih hvs)

theorem ClientView.erase [DecidableEq ι] (h : ClientView cfg c true st known l) (hd : d ≠ c) :
    ClientView cfg c true st (known.erase d) (eraseUser (cfg.bytes d) l) := by
  obtain ⟨v, own, us, rfl, hv, ho, hs, hk⟩ := h
  have ho' : own.name ≠ cfg.bytes d := by
    rw [ho, if_pos rfl]
    exact fun he => hd (cfg.bytes_injective he).symm
  refine ⟨v, own, eraseUser (cfg.bytes d) us, ?_, hv, ho, hs, names_erase hk d⟩
  rw [eraseUser_cons_of_ne (hv ▸ cfg.bytes_ne_server d), eraseUser_cons_of_ne ho']

end Views

def RequestOf (cfg : Config ι) (c : ι) (b : Bytes) : Roster.Request → Prop
  | .login => Carries b .login (cfg.bytes c)
  | .logout => Carries b .logout (cfg.bytes c)

def NoticeOf (cfg : Config ι) (b : Bytes) : Roster.Notice ι → Prop
  | .reply => Carries b .login serverName
  | .error => Carries b .login errorName
  | .update d => ∃ a, CarriesAddr b .update (cfg.bytes d) a ∧ a.endpoint = cfg.endpoint d
  | .logout d => Carries b .logout (cfg.bytes d)

def GreetingOf (cfg : Config ι) (a : ι) (b : Bytes) : Prop :=
  ∃ x, CarriesAddr b .backSyn (cfg.bytes a) x

/-- The messages on the way are those of the abstract state. -/
structure Flows (cfg : Config ι) (P : Option ι → Option ι → List Bytes) (t : Roster.State ι) :
    Prop where
  up : ∀ c, List.Forall₂ (RequestOf cfg c) (P (some c) none) (t.up c)
  down : ∀ c, List.Forall₂ (NoticeOf cfg) (P none (some c)) (t.down c)
  peer : ∀ a c, (P (some a) (some c)).length = t.peer a c
  greeting : ∀ a c, ∀ b ∈ P (some a) (some c), GreetingOf cfg a b
  loop : P none none = []

/-- Only the pipes of the abstract state matter. -/
theorem Flows.congr {cfg : Config ι} {P : Option ι → Option ι → List Bytes} {t t' : Roster.State ι}
    (h : Flows cfg P t) (hu : t'.up = t.up) (hd : t'.down = t.down) (hp : t'.peer = t.peer) :
    Flows cfg P t' where
  up c := hu ▸ h.up c
  down c := hd ▸ h.down c
  peer a c := hp ▸ h.peer a c
  greeting := h.greeting
  loop := h.loop

section Lists

variable {α β : Type} {R : α → β → Prop} {l l' : List α} {m : List β}

theorem forall₂_sublist (h : List.Forall₂ R l m) (hs : l'.Sublist l) :
    ∃ m', List.Forall₂ R l' m' ∧ m'.Sublist m := by
  induction hs generalizing m with
  | slnil => exact ⟨m, h, .refl m⟩
  | cons a _ ih =>
      cases h with
      | @cons _ y _ ys _ h =>
          obtain ⟨m', hm, hs⟩ := ih h
          exact ⟨m', hm, hs.cons y⟩
  | cons_cons a _ ih =>
      cases h with
      | @cons _ y _ ys ha h =>
          obtain ⟨m', hm, hs⟩ := ih h
          exact ⟨y :: m', .cons ha hm, hs.cons_cons y⟩

theorem forall₂_subperm (h : List.Forall₂ R l m) (hs : l'.Subperm l) :
    ∃ m', List.Forall₂ R l' m' ∧ m'.Subperm m ∧ (l' = l → m' = m) := by
  by_cases he : l' = l
  · exact ⟨m, he ▸ h, .refl m, fun _ => rfl⟩
  · obtain ⟨k, hp, hs⟩ := hs
    obtain ⟨m', hm, hs⟩ := forall₂_sublist h hs
    obtain ⟨w, hw, hp⟩ := List.perm_comp_forall₂ hp.symm hm
    exact ⟨w, hw, ⟨m', hp.symm, hs⟩, fun h => absurd h he⟩

/-- The first element of one list of a family is taken off, and off the related list. -/
theorem forall₂_tail_of_family {κ : Type} [DecidableEq κ] {R : κ → α → β → Prop}
    {P P' : κ → List α} {f : κ → List β} {c : κ} {b : α} (h : ∀ x, List.Forall₂ (R x) (P x) (f x))
    (hP : ∀ x, P x = (if x = c then [b] else []) ++ P' x) :
    ∃ m r, f c = m :: r ∧ R c b m ∧
      ∀ x, List.Forall₂ (R x) (P' x) (Function.update f c r x) := by
  have hc := h c
  rw [hP, if_pos rfl, List.singleton_append] at hc
  obtain ⟨m, r, hm, hr, he⟩ := List.forall₂_cons_left_iff.mp hc
  refine ⟨m, r, he, hm, fun x => ?_⟩
  by_cases hx : x = c
  · subst hx
    rwa [Function.update_self]
  · have hrest := h x
    rw [hP, if_neg hx, List.nil_append] at hrest
    rwa [Function.update_of_ne hx]

end Lists

section Flows

variable {cfg : Config ι} {P P' : Option ι → Option ι → List Bytes} {t : Roster.State ι}

/-- Pipes that have lost and permuted messages are those of a disturbed state. -/
theorem Flows.settle (h : Flows cfg P t) (hs : ∀ p q, (P' p q).Subperm (P p q)) :
    ∃ up down peer, (∀ c, (up c).Subperm (t.up c)) ∧ (∀ c, (down c).Subperm (t.down c)) ∧
      (∀ a c, peer a c ≤ t.peer a c) ∧
      Flows cfg P' { t with up := up, down := down, peer := peer } ∧
      (∀ c, P' (some c) none = P (some c) none → up c = t.up c) ∧
      (∀ c, P' none (some c) = P none (some c) → down c = t.down c) ∧
      ∀ a c, P' (some a) (some c) = P (some a) (some c) → peer a c = t.peer a c := by
  choose up hup hups hupe using fun c => forall₂_subperm (h.up c) (hs (some c) none)
  choose down hdown hdowns hdowne using fun c => forall₂_subperm (h.down c) (hs none (some c))
  refine ⟨up, down, fun a c => (P' (some a) (some c)).length, hups, hdowns, ?_, ?_, hupe, hdowne,
    ?_⟩
  · intro a c
    rw [← h.peer a c]
    exact (hs (some a) (some c)).length_le
  · refine ⟨hup, hdown, fun _ _ => rfl, ?_, ?_⟩
    · exact fun a c b hb => h.greeting a c b ((hs (some a) (some c)).subset hb)
    · have hn := hs none none
      rw [h.loop] at hn
      exact List.subperm_nil.mp hn
  · intro a c he
    rw [← h.peer a c, ← he]

variable [DecidableEq ι]

theorem Flows.serve {c : ι} {b : Bytes} (h : Flows cfg P t)
    (hP : ∀ x y, P x y = (if x = some c ∧ y = none then [b] else []) ++ P' x y) :
    ∃ m r, t.up c = m :: r ∧ RequestOf cfg c b m ∧
      Flows cfg P' { t with up := Function.update t.up c r } := by
  have hone (x : ι) : P (some x) none = (if x = c then [b] else []) ++ P' (some x) none := by
    simpa using hP (some x) none
  obtain ⟨m, r, he, hm, hup⟩ := forall₂_tail_of_family h.up hone
  refine ⟨m, r, he, hm, hup, ?_, ?_, ?_, ?_⟩
  · intro x
    simpa [hP] using h.down x
  · intro a x
    simpa [hP] using h.peer a x
  · intro a x
    simpa [hP] using h.greeting a x
  · simpa [hP] using h.loop

theorem Flows.hear {c : ι} {b : Bytes} (h : Flows cfg P t)
    (hP : ∀ x y, P x y = (if x = none ∧ y = some c then [b] else []) ++ P' x y) :
    ∃ m r, t.down c = m :: r ∧ NoticeOf cfg b m ∧
      Flows cfg P' { t with down := Function.update t.down c r } := by
  have hone (x : ι) : P none (some x) = (if x = c then [b] else []) ++ P' none (some x) := by
    simpa using hP none (some x)
  obtain ⟨m, r, he, hm, hdown⟩ := forall₂_tail_of_family h.down hone
  refine ⟨m, r, he, hm, ?_, hdown, ?_, ?_, ?_⟩
  · intro x
    simpa [hP] using h.up x
  · intro a x
    simpa [hP] using h.peer a x
  · intro a x
    simpa [hP] using h.greeting a x
  · simpa [hP] using h.loop

theorem Flows.greet {a c : ι} {b : Bytes} (h : Flows cfg P t)
    (hP : ∀ x y, P x y = (if x = some a ∧ y = some c then [b] else []) ++ P' x y) :
    0 < t.peer a c ∧ GreetingOf cfg a b ∧
      Flows cfg P' { t with peer := Roster.setPeer t.peer a c (t.peer a c - 1) } := by
  have hlen := h.peer a c
  have hgr := h.greeting a c b
  rw [hP] at hlen hgr
  simp only [and_self, if_true, List.singleton_append, List.length_cons] at hlen hgr
  refine ⟨by omega, hgr (List.mem_cons_self ..), ?_, ?_, ?_, ?_, ?_⟩
  · intro x
    simpa [hP] using h.up x
  · intro x
    simpa [hP] using h.down x
  · intro x y
    change _ = Roster.setPeer _ _ _ _ x y
    rw [Roster.setPeer_apply]
    split_ifs with hxy
    · obtain ⟨rfl, rfl⟩ := hxy
      omega
    · simpa [hP, hxy] using h.peer x y
  · intro x y b' hb'
    exact h.greeting x y b' (by rw [hP]; exact List.mem_append_right _ hb')
  · simpa [hP] using h.loop

omit [DecidableEq ι] in
/-- The server sends `W (some d)` to every client `d`. -/
theorem Flows.announce {W : Option ι → List Bytes} {new : ι → List (Roster.Notice ι)}
    (h : Flows cfg P t) (hP : ∀ x y, P' x y = P x y ++ if x = none then W y else [])
    (hW : ∀ d, List.Forall₂ (NoticeOf cfg) (W (some d)) (new d)) (hn : W none = []) :
    Flows cfg P' { t with down := fun d => t.down d ++ new d } := by
  refine ⟨?_, ?_, ?_, ?_, ?_⟩
  · intro c
    simpa [hP] using h.up c
  · intro c
    rw [hP]
    exact List.rel_append (h.down c) (hW c)
  · intro a c
    simpa [hP] using h.peer a c
  · intro a c
    simpa [hP] using h.greeting a c
  · simp [hP, h.loop, hn]

/-- Client `c` sends one request to the server. -/
theorem Flows.request {c : ι} {W : Option ι → List Bytes} {b : Bytes} {m : Roster.Request}
    (h : Flows cfg P t) (hP : ∀ x y, P' x y = P x y ++ if x = some c then W y else [])
    (hb : RequestOf cfg c b m) (hn : W none = [b]) (hW : ∀ d, W (some d) = []) :
    Flows cfg P' { t with up := Roster.push t.up c m } := by
  refine ⟨?_, ?_, ?_, ?_, ?_⟩
  · intro x
    change List.Forall₂ _ _ (Roster.push t.up c m x)
    rw [hP, Roster.push_apply]
    refine List.rel_append (h.up x) ?_
    by_cases hx : x = c
    · subst hx
      simpa [hn] using hb
    · simp [hx]
  · intro x
    simpa [hP] using h.down x
  · intro a x
    simpa [hP, hW] using h.peer a x
  · intro a x
    simpa [hP, hW] using h.greeting a x
  · simpa [hP] using h.loop

/-- Client `c` sends one greeting to client `d`. -/
theorem Flows.reply {c d : ι} {W : Option ι → List Bytes} {b : Bytes} (h : Flows cfg P t)
    (hP : ∀ x y, P' x y = P x y ++ if x = some c then W y else []) (hb : GreetingOf cfg c b)
    (hn : W none = []) (hW : ∀ x, W (some x) = if x = d then [b] else []) :
    Flows cfg P' { t with peer := Roster.setPeer t.peer c d (t.peer c d + 1) } := by
  refine ⟨?_, ?_, ?_, ?_, ?_⟩
  · intro x
    simpa [hP, hn] using h.up x
  · intro x
    simpa [hP] using h.down x
  · intro x y
    change _ = Roster.setPeer _ _ _ _ x y
    rw [Roster.setPeer_apply, hP, List.length_append, h.peer]
    by_cases hx : x = c <;> by_cases hy : y = d <;> simp [hx, hy, hW]
  · intro x y b' hb'
    rw [hP] at hb'
    rcases List.mem_append.mp hb' with hb' | hb'
    · exact h.greeting x y b' hb'
    · by_cases hx : x = c
      · subst hx
        by_cases hy : y = d
        · have he : b' = b := by simpa [hW, hy] using hb'
          exact he ▸ hb
        · simp [hW, hy] at hb'
      · simp [hx] at hb'
  · simpa [hP] using h.loop

end Flows

end Hatch.Net
