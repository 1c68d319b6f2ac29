import Hatch.TransitionSystem
import Mathlib.Data.Fintype.Basic
import Mathlib.Data.List.Nodup

/-!
# The container of singletons

`SingletonContainer.getBean` looks a class up in a map under the monitor of the map, and makes and
registers an object if there is none. The monitor is reentrant: while a class is loaded and its
constructor runs, the thread may call `getBean` again. A caught exception gives null, any other
leaves the call. Objects are numbered in the order in which they are made.
-/

namespace Hatch.SingletonContainer

open TransitionSystem

inductive Stage where
  | entering
  | checking
  | constructing
  | putting (obj : ℕ)
  | leaving (result : Option ℕ)
  deriving DecidableEq

structure Frame (C : Type) where
  className : C
  stage : Stage

/-- The last call of a thread is on top of its stack; `results` are the calls that have returned. -/
structure State (T C : Type) where
  ioc : C → Option ℕ
  owner : Option T
  stack : T → List (Frame C)
  next : ℕ
  results : List (C × Option ℕ)

inductive Outcome where
  | made
  | caught
  | thrown

inductive Action (T C : Type) where
  | call (t : T) (c : C)
  | enter (t : T)
  | check (t : T)
  | construct (t : T) (o : Outcome)
  | put (t : T)
  | leave (t : T)

variable {T C : Type}

section Program

variable [DecidableEq T] [DecidableEq C]

def State.setStack (s : State T C) (t : T) (l : List (Frame C)) : State T C :=
  { s with stack := Function.update s.stack t l }

/-- The last call of `t` ends; the monitor is free if no other call of `t` is under it. -/
def State.pop (s : State T C) (t : T) (l : List (Frame C)) : State T C :=
  { s.setStack t l with owner := if l = [] then none else s.owner }

def step (s : State T C) : Action T C → Option (State T C)
  | .call t c => match s.stack t with
      | [] => some (s.setStack t [⟨c, .entering⟩])
      | ⟨b, .constructing⟩ :: l =>
          some (s.setStack t (⟨c, .entering⟩ :: ⟨b, .constructing⟩ :: l))
      | _ => none
  | .enter t => match s.stack t with
      | ⟨c, .entering⟩ :: l =>
          if s.owner = none ∨ s.owner = some t then
            some { s.setStack t (⟨c, .checking⟩ :: l) with owner := some t }
          else none
      | _ => none
  | .check t => match s.stack t with
      | ⟨c, .checking⟩ :: l => match s.ioc c with
          | some o => some (s.setStack t (⟨c, .leaving (some o)⟩ :: l))
          | none => some (s.setStack t (⟨c, .constructing⟩ :: l))
      | _ => none
  | .construct t o => match s.stack t with
      | ⟨c, .constructing⟩ :: l => match o with
          | .made => some { s.setStack t (⟨c, .putting s.next⟩ :: l) with next := s.next + 1 }
          | .caught => some (s.setStack t (⟨c, .leaving none⟩ :: l))
          | .thrown => some (s.pop t l)
      | _ => none
  | .put t => match s.stack t with
      | ⟨c, .putting o⟩ :: l => some { s.setStack t (⟨c, .leaving (some o)⟩ :: l) with
          ioc := Function.update s.ioc c (some o) }
      | _ => none
  | .leave t => match s.stack t with
      | ⟨c, .leaving r⟩ :: l => some { s.pop t l with results := s.results ++ [(c, r)] }
      | _ => none

def start : State T C where
  ioc _ := none
  owner := none
  stack _ := []
  next := 0
  results := []

def container (T C : Type) [DecidableEq T] [DecidableEq C] :
    Machine (State T C) (Action T C) where
  init s := s = start
  step := step

/-- No class asks for itself while it is loaded or made, directly or through others. -/
def Acyclic (s : State T C) : Action T C → Prop
  | .call t c => c ∉ (s.stack t).map Frame.className
  | _ => True

instance (s : State T C) (a : Action T C) : Decidable (Acyclic s a) :=
  match a with
  | .call t c => inferInstanceAs (Decidable (c ∉ (s.stack t).map Frame.className))
  | .enter _ | .check _ | .construct .. | .put _ | .leave _ => .isTrue trivial

/-! What a step can do. -/

inductive Change (s : State T C) : Action T C → State T C → Prop
  | call (t : T) (c : C) (h : ∀ f ∈ s.stack t, f.stage = .constructing ∨ f ∈ (s.stack t).tail) :
      Change s (.call t c) (s.setStack t (⟨c, .entering⟩ :: s.stack t))
  | enter (t : T) {c : C} {l : List (Frame C)} (h : s.stack t = ⟨c, .entering⟩ :: l)
      (ho : s.owner = none ∨ s.owner = some t) :
      Change s (.enter t) { s.setStack t (⟨c, .checking⟩ :: l) with owner := some t }
  | found (t : T) {c : C} {l : List (Frame C)} (h : s.stack t = ⟨c, .checking⟩ :: l) (o : ℕ)
      (hc : s.ioc c = some o) :
      Change s (.check t) (s.setStack t (⟨c, .leaving (some o)⟩ :: l))
  | missing (t : T) {c : C} {l : List (Frame C)} (h : s.stack t = ⟨c, .checking⟩ :: l)
      (hc : s.ioc c = none) : Change s (.check t) (s.setStack t (⟨c, .constructing⟩ :: l))
  | made (t : T) {c : C} {l : List (Frame C)} (h : s.stack t = ⟨c, .constructing⟩ :: l) :
      Change s (.construct t .made)
        { s.setStack t (⟨c, .putting s.next⟩ :: l) with next := s.next + 1 }
  | caught (t : T) {c : C} {l : List (Frame C)} (h : s.stack t = ⟨c, .constructing⟩ :: l) :
      Change s (.construct t .caught) (s.setStack t (⟨c, .leaving none⟩ :: l))
  | thrown (t : T) {c : C} {l : List (Frame C)} (h : s.stack t = ⟨c, .constructing⟩ :: l) :
      Change s (.construct t .thrown) (s.pop t l)
  | put (t : T) {c : C} {l : List (Frame C)} (o : ℕ) (h : s.stack t = ⟨c, .putting o⟩ :: l) :
      Change s (.put t) { s.setStack t (⟨c, .leaving (some o)⟩ :: l) with
        ioc := Function.update s.ioc c (some o) }
  | leave (t : T) {c : C} {l : List (Frame C)} (r : Option ℕ)
      (h : s.stack t = ⟨c, .leaving r⟩ :: l) :
      Change s (.leave t) { s.pop t l with results := s.results ++ [(c, r)] }

theorem change_of_step {s u : State T C} {a : Action T C} (h : step s a = some u) :
    Change s a u := by
  unfold step at h
  split at h
  · rename_i t c
    split at h
    · rename_i hs
      obtain rfl := Option.some.inj h
      have hc := Change.call (s := s) t c (by simp [hs])
      rwa [hs] at hc
    · rename_i b l hs
      obtain rfl := Option.some.inj h
      have hc := Change.call (s := s) t c (by
        rw [hs]
        intro f hf
        rcases List.mem_cons.mp hf with rfl | hf
        · exact .inl rfl
        · exact .inr hf)
      rwa [hs] at hc
    · cases h
  · split at h
    · rename_i c l hs
      split_ifs at h with ho
      exact Option.some.inj h ▸ .enter _ hs ho
    · cases h
  · split at h
    · rename_i c l hs
      split at h
      · rename_i o ho
        exact Option.some.inj h ▸ .found _ hs o ho
      · rename_i ho
        exact Option.some.inj h ▸ .missing _ hs ho
    · cases h
  · split at h
    · rename_i c l hs
      split at h
      · exact Option.some.inj h ▸ .made _ hs
      · exact Option.some.inj h ▸ .caught _ hs
      · exact Option.some.inj h ▸ .thrown _ hs
    · cases h
  · split at h
    · rename_i c o l hs
      exact Option.some.inj h ▸ .put _ o hs
    · cases h
  · split at h
    · rename_i c r l hs
      exact Option.some.inj h ▸ .leave _ r hs
    · cases h

end Program

/-! What holds in every run. -/

/-- What a call relies on: a class that it makes is not registered, and what it returns is. -/
def Frame.Agrees (ioc : C → Option ℕ) (f : Frame C) : Prop :=
  match f.stage with
  | .constructing | .putting _ => ioc f.className = none
  | .leaving (some o) => ioc f.className = some o
  | _ => True

structure Inv (s : State T C) : Prop where
  lock : ∀ t, ∀ f ∈ s.stack t, f.stage ≠ .entering → s.owner = some t
  tail : ∀ t, ∀ f ∈ (s.stack t).tail, f.stage = .constructing
  distinct : ∀ t, ((s.stack t).map Frame.className).Nodup
  agrees : ∀ t, ∀ f ∈ s.stack t, f.Agrees s.ioc
  registered : ∀ c o, (c, some o) ∈ s.results → s.ioc c = some o

section Inv

variable {s : State T C} {t : T} {f f' : Frame C} {l : List (Frame C)} {c : C}

theorem inv_start : Inv (start : State T C) where
  lock _ _ hf := absurd hf List.not_mem_nil
  tail _ _ hf := absurd hf List.not_mem_nil
  distinct _ := List.nodup_nil
  agrees _ _ hf := absurd hf List.not_mem_nil
  registered _ _ hr := absurd hr List.not_mem_nil

theorem Inv.owner_eq (h : Inv s) (hs : s.stack t = f :: l) (hf : f.stage ≠ .entering) :
    s.owner = some t := h.lock t f (by rw [hs]; exact List.mem_cons_self ..) hf

/-- Only the owner of the monitor is past its entry. -/
theorem Inv.entering_of_ne (h : Inv s) {u : T} (ho : s.owner = some t) (hu : u ≠ t)
    (hf : f ∈ s.stack u) : f.stage = .entering := by
  by_contra hs
  have he := h.lock u f hf hs
  rw [ho] at he
  exact hu (Option.some.inj he).symm

theorem Inv.top_agrees (h : Inv s) (hs : s.stack t = f :: l) : f.Agrees s.ioc :=
  h.agrees t f (by rw [hs]; exact List.mem_cons_self ..)

theorem agrees_of_entering {ioc : C → Option ℕ} (hf : f.stage = .entering) : f.Agrees ioc := by
  unfold Frame.Agrees
  rw [hf]
  trivial

variable [DecidableEq T]

theorem setStack_cases {P : T → List (Frame C) → Prop} (ht : P t l)
    (hs : ∀ u, u ≠ t → P u (s.stack u)) (u : T) : P u ((s.setStack t l).stack u) := by
  change P u (Function.update s.stack t l u)
  by_cases hu : u = t
  · subst hu
    rwa [Function.update_self]
  · rw [Function.update_of_ne hu]
    exact hs u hu

/-- The owner changes the stage of its last call. -/
theorem Inv.setTop (h : Inv s) (hs : s.stack t = f :: l) (ho : s.owner = some t)
    (hc : f'.className = f.className) (ha : f'.Agrees s.ioc) : Inv (s.setStack t (f' :: l)) where
  lock := by
    refine setStack_cases (P := fun u l => ∀ g ∈ l, g.stage ≠ .entering → s.owner = some u)
      (fun _ _ _ => ho) (fun u _ => h.lock u)
  tail := by
    have ht := h.tail t
    rw [hs] at ht
    exact setStack_cases (P := fun _ l => ∀ g ∈ l.tail, g.stage = .constructing) ht
      (fun u _ => h.tail u)
  distinct := by
    have ht := h.distinct t
    rw [hs, List.map_cons, ← hc] at ht
    exact setStack_cases (P := fun _ l => (l.map Frame.className).Nodup) ht
      (fun u _ => h.distinct u)
  agrees := by
    refine setStack_cases (P := fun _ l => ∀ g ∈ l, g.Agrees s.ioc) ?_ (fun u _ => h.agrees u)
    intro g hg
    rcases List.mem_cons.mp hg with rfl | hg
    · exact ha
    · exact h.agrees t g (by rw [hs]; exact List.mem_cons_of_mem _ hg)
  registered := h.registered

theorem Inv.call (h : Inv s) (hc : c ∉ (s.stack t).map Frame.className)
    (hall : ∀ f ∈ s.stack t, f.stage = .constructing ∨ f ∈ (s.stack t).tail) :
    Inv (s.setStack t (⟨c, .entering⟩ :: s.stack t)) where
  lock := by
    refine setStack_cases (P := fun u l => ∀ g ∈ l, g.stage ≠ .entering → s.owner = some u)
      ?_ (fun u _ => h.lock u)
    intro g hg hne
    rcases List.mem_cons.mp hg with rfl | hg
    · exact absurd rfl hne
    · exact h.lock t g hg hne
  tail := by
    refine setStack_cases (P := fun _ l => ∀ g ∈ l.tail, g.stage = .constructing) ?_
      (fun u _ => h.tail u)
    exact fun g hg => (hall g hg).elim id (h.tail t g)
  distinct := setStack_cases (P := fun _ l => (l.map Frame.className).Nodup)
    (List.nodup_cons.mpr ⟨hc, h.distinct t⟩) (fun u _ => h.distinct u)
  agrees := by
    refine setStack_cases (P := fun _ l => ∀ g ∈ l, g.Agrees s.ioc) ?_ (fun u _ => h.agrees u)
    intro g hg
    rcases List.mem_cons.mp hg with rfl | hg
    · trivial
    · exact h.agrees t g hg
  registered := h.registered

theorem Inv.enter (h : Inv s) (hs : s.stack t = ⟨c, .entering⟩ :: l)
    (ho : s.owner = none ∨ s.owner = some t) :
    Inv { s.setStack t (⟨c, .checking⟩ :: l) with owner := some t } := by
  -- nobody else is past the entry, so it does not matter that the owner changes
  have hown : Inv { s with owner := some t } := by
    refine ⟨fun u f hf hne => ?_, h.tail, h.distinct, h.agrees, h.registered⟩
    have hu := h.lock u f hf hne
    rcases ho with ho | ho
    · rw [ho] at hu
      cases hu
    · exact ho.symm.trans hu
  exact hown.setTop (f := ⟨c, .entering⟩) hs rfl rfl trivial

theorem Inv.pop (h : Inv s) (hs : s.stack t = f :: l) (hf : f.stage ≠ .entering) :
    Inv (s.pop t l) where
  lock := by
    have ho := h.owner_eq hs hf
    refine setStack_cases (P := fun u m => ∀ g ∈ m, g.stage ≠ .entering →
      (if l = [] then none else s.owner) = some u) ?_ ?_
    · intro g hg _
      rw [if_neg (List.ne_nil_of_mem hg), ho]
    · exact fun u hu g hg hne => absurd (h.entering_of_ne ho hu hg) hne
  tail := by
    have ht := h.tail t
    rw [hs] at ht
    exact setStack_cases (P := fun _ l => ∀ g ∈ l.tail, g.stage = .constructing)
      (fun g hg => ht g (List.mem_of_mem_tail hg)) (fun u _ => h.tail u)
  distinct := by
    have ht := h.distinct t
    rw [hs, List.map_cons] at ht
    exact setStack_cases (P := fun _ l => (l.map Frame.className).Nodup)
      (List.nodup_cons.mp ht).2 (fun u _ => h.distinct u)
  agrees := setStack_cases (P := fun _ l => ∀ g ∈ l, g.Agrees s.ioc)
    (fun g hg => h.agrees t g (by rw [hs]; exact List.mem_cons_of_mem _ hg))
    (fun u _ => h.agrees u)
  registered := h.registered

variable [DecidableEq C]

/-- The class is registered while nobody else is past the entry and no other call of the thread
makes it. -/
theorem Inv.put (h : Inv s) {o : ℕ} (hs : s.stack t = ⟨c, .putting o⟩ :: l) :
    Inv { s.setStack t (⟨c, .leaving (some o)⟩ :: l) with
      ioc := Function.update s.ioc c (some o) } := by
  have ho := h.owner_eq hs (by simp)
  have hnone : s.ioc c = none := h.top_agrees hs
  have hd := h.distinct t
  rw [hs, List.map_cons] at hd
  have htail := h.tail t
  rw [hs] at htail
  have hset : Inv (s.setStack t (⟨c, .putting o⟩ :: l)) :=
    h.setTop hs ho rfl (h.top_agrees hs)
  refine ⟨?_, ?_, ?_, ?_, ?_⟩
  · exact setStack_cases (P := fun u l => ∀ g ∈ l, g.stage ≠ .entering → s.owner = some u)
      (fun _ _ _ => ho) (fun u _ => h.lock u)
  · exact setStack_cases (P := fun _ l => ∀ g ∈ l.tail, g.stage = .constructing) htail
      (fun u _ => h.tail u)
  · exact setStack_cases (P := fun _ l => (l.map Frame.className).Nodup) hd
      (fun u _ => h.distinct u)
  · refine setStack_cases (P := fun _ l => ∀ g ∈ l,
      g.Agrees (Function.update s.ioc c (some o))) ?_ ?_
    · intro g hg
      rcases List.mem_cons.mp hg with rfl | hg
      · exact Function.update_self ..
      · have hne : g.className ≠ c := fun he =>
          (List.nodup_cons.mp hd).1 (List.mem_map.mpr ⟨g, hg, he⟩)
        have hg' := h.agrees t g (by rw [hs]; exact List.mem_cons_of_mem _ hg)
        have hstage := htail g hg
        unfold Frame.Agrees at hg' ⊢
        rw [hstage] at hg' ⊢
        simpa [Function.update_of_ne hne] using hg'
    · exact fun u hu g hg => agrees_of_entering (h.entering_of_ne ho hu hg)
  · intro c' o' hr
    have hreg := h.registered c' o' hr
    have hne : c' ≠ c := fun he => by rw [he, hnone] at hreg; cases hreg
    exact (Function.update_of_ne hne ..).trans hreg

theorem Inv.step (h : Inv s) {a : Action T C} {u : State T C} (hg : Acyclic s a)
    (he : step s a = some u) : Inv u := by
  cases change_of_step he with
  | call t c hall => exact h.call hg hall
  | enter t hs ho => exact h.enter hs ho
  | found t hs o hc => exact h.setTop hs (h.owner_eq hs (by simp)) rfl hc
  | missing t hs hc => exact h.setTop hs (h.owner_eq hs (by simp)) rfl hc
  | @made t c l hs =>
      have hnone := h.top_agrees hs
      have hi : Inv (s.setStack t (⟨c, .putting s.next⟩ :: l)) :=
        h.setTop hs (h.owner_eq hs (by simp)) rfl hnone
      exact ⟨hi.lock, hi.tail, hi.distinct, hi.agrees, hi.registered⟩
  | caught t hs => exact h.setTop hs (h.owner_eq hs (by simp)) rfl trivial
  | thrown t hs => exact h.pop hs (by simp)
  | put t o hs => exact h.put hs
  | @leave t c l r hs =>
      have hi := h.pop hs (by simp)
      refine ⟨hi.lock, hi.tail, hi.distinct, hi.agrees, ?_⟩
      intro c' o' hr
      rcases List.mem_append.mp hr with hr | hr
      · exact h.registered c' o' hr
      · obtain ⟨rfl, rfl⟩ := Prod.mk.inj (List.mem_singleton.mp hr)
        exact h.top_agrees hs

/-- All calls for a class that return an object return the same one, whatever the threads do, as
long as no class asks for itself while it is made. -/
theorem getBean_unique (h : Reaches (container T C) Acyclic s) {o o' : ℕ}
    (hr : (c, some o) ∈ s.results) (hr' : (c, some o') ∈ s.results) : o = o' := by
  have hi : Inv s := h.invariant (fun _ hs => hs ▸ inv_start) (fun _ _ _ hi hg he => hi.step hg he)
  exact Option.some.inj ((hi.registered c o hr).symm.trans (hi.registered c o' hr'))

end Inv

/-- Two threads ask for the same class; its constructor asks for another one. -/
theorem getBean_unique_nested : ∃ s : State (Fin 2) Bool, Reaches (container _ _) Acyclic s ∧
    (true, some 1) ∈ s.results ∧ (false, some 0) ∈ s.results ∧
    ∀ o, (true, some o) ∈ s.results → 1 = o := by
  obtain ⟨s, hs, h1, h0⟩ := Reaches.exists_of_run (G := Acyclic)
    (Q := fun s : State (Fin 2) Bool =>
      (true, some 1) ∈ s.results ∧ (false, some 0) ∈ s.results)
    (.init (M := container (Fin 2) Bool) rfl)
    [.call 0 true, .call 1 true, .enter 0, .check 0, .call 0 false, .enter 0, .check 0,
      .construct 0 .made, .put 0, .leave 0, .construct 0 .made, .put 0, .leave 0, .enter 1,
      .check 1, .leave 1] (by decide +kernel)
  exact ⟨s, hs, h1, h0, fun o ho => getBean_unique hs h1 ho⟩

/-- A class whose constructor asks for the class itself is registered twice. -/
example : ∃ s : State Unit Unit, Reachable (container _ _) s ∧
    ((), some 0) ∈ s.results ∧ ((), some 1) ∈ s.results :=
  Reaches.exists_of_run (.init rfl)
    [.call () (), .enter (), .check (), .call () (), .enter (), .check (), .construct () .made,
      .put (), .leave (), .construct () .made, .put (), .leave ()] (by decide +kernel)

end Hatch.SingletonContainer
