import Hatch.TransitionSystem
import Mathlib.Data.Fintype.Basic
import Mathlib.Tactic.ByContra

/-!
# A lazy singleton with two checks

`LazySingletonSycDoubleCheck.getInstance` tests the static field, and under the monitor of the class
tests it again before it makes the object; at the end it reads the field once more. The field is not
`volatile`: a thread that reads it may see the object or still null, each time anew, unless the
write happens before the read, by the order of the thread itself or by the monitor. The only other
write is the initial null. Objects are numbered in the order in which they are made.
-/

namespace Hatch.DoubleCheck

open TransitionSystem

/-- The stages of a call; `locked` says whether it has gone through the monitor. -/
inductive Stage where
  | idle
  | testing
  | entering
  | rechecking
  | creating
  | writing (obj : ℕ)
  | leaving
  | reading (locked : Bool)
  deriving DecidableEq

/-- `synced t`: the write of the field happens before what thread `t` does next. A call that has
returned is kept with its result. -/
structure State (T : Type) where
  lazy : Option ℕ
  owner : Option T
  stage : T → Stage
  synced : T → Bool
  created : ℕ
  results : List (Option ℕ × Bool)

inductive Action (T : Type) where
  | call (t : T)
  | test (t : T) (v : Option ℕ)
  | enter (t : T)
  | recheck (t : T) (v : Option ℕ)
  | create (t : T)
  | write (t : T)
  | leave (t : T)
  | read (t : T) (v : Option ℕ)

variable {T : Type}

def State.Visible (s : State T) (t : T) (v : Option ℕ) : Prop :=
  v = s.lazy ∨ v = none ∧ s.synced t = false

instance (s : State T) (t : T) (v : Option ℕ) : Decidable (s.Visible t v) :=
  inferInstanceAs (Decidable (_ ∨ _ ∧ _))

section Program

variable [DecidableEq T]

def State.move (s : State T) (t : T) (st : Stage) : State T :=
  { s with stage := Function.update s.stage t st }

def step (s : State T) : Action T → Option (State T)
  | .call t => if s.stage t = .idle then some (s.move t .testing) else none
  | .test t v =>
      if s.stage t = .testing ∧ s.Visible t v then
        some (s.move t (if v = none then .entering else .reading false))
      else none
  | .enter t =>
      if s.stage t = .entering ∧ s.owner = none then some { s.move t .rechecking with
        owner := some t
        synced := Function.update s.synced t (s.synced t || s.lazy.isSome) }
      else none
  | .recheck t v =>
      if s.stage t = .rechecking ∧ s.Visible t v then
        some (s.move t (if v = none then .creating else .leaving))
      else none
  | .create t =>
      if s.stage t = .creating then
        some { s.move t (.writing s.created) with created := s.created + 1 }
      else none
  | .write t => match s.stage t with
      | .writing o => some { s.move t .leaving with
          lazy := some o, synced := Function.update s.synced t true }
      | _ => none
  | .leave t =>
      if s.stage t = .leaving then some { s.move t (.reading true) with owner := none } else none
  | .read t v => match s.stage t with
      | .reading b =>
          if s.Visible t v then some { s.move t .idle with results := s.results ++ [(v, b)] }
          else none
      | _ => none

def start : State T where
  lazy := none
  owner := none
  stage _ := .idle
  synced _ := false
  created := 0
  results := []

def getInstance (T : Type) [DecidableEq T] : Machine (State T) (Action T) where
  init s := s = start
  step := step

end Program

/-- Every read sees the last write, as if the field were `volatile`. -/
def Latest (s : State T) : Action T → Prop
  | .test _ v | .recheck _ v | .read _ v => v = s.lazy
  | _ => True

instance (s : State T) (a : Action T) : Decidable (Latest s a) :=
  match a with
  | .test _ v | .recheck _ v | .read _ v => inferInstanceAs (Decidable (v = s.lazy))
  | .call _ | .enter _ | .create _ | .write _ | .leave _ => .isTrue trivial

def Stage.inside : Stage → Bool
  | .rechecking | .creating | .writing _ | .leaving => true
  | _ => false

def Stage.Agrees (lazy : Option ℕ) (synced : Bool) (created : ℕ) : Stage → Prop
  | .rechecking => (lazy.isSome = true → synced = true) ∧ (lazy = none → created = 0)
  | .creating => lazy = none ∧ created = 0
  | .writing o => lazy = none ∧ created = 1 ∧ o = 0
  | .leaving => lazy = some 0 ∧ synced = true
  | .reading b => lazy = some 0 ∧ (b = true → synced = true)
  | _ => True

structure Inv (s : State T) : Prop where
  lock : ∀ t, (s.stage t).inside = true ↔ s.owner = some t
  agrees : ∀ t, (s.stage t).Agrees s.lazy (s.synced t) s.created
  once : ∀ o, s.lazy = some o → o = 0 ∧ s.created = 1
  free : s.owner = none → s.lazy = none → s.created = 0
  synced : ∀ t, s.synced t = true → s.lazy.isSome = true
  results : ∀ r ∈ s.results, r.1 = some 0 ∧ s.lazy = some 0 ∨ r = (none, false)

theorem inv_start : Inv (start : State T) where
  lock _ := by simp [start, Stage.inside]
  agrees _ := trivial
  once _ h := by cases h
  free _ _ := rfl
  synced _ h := by cases h
  results _ h := absurd h List.not_mem_nil

section Inv

variable {s : State T} {t u : T} {v : Option ℕ}

/-- A call outside the monitor relies on nothing but the object it has seen. -/
theorem agrees_of_not_inside {st : Stage} {lazy lazy' : Option ℕ} {b : Bool} {n n' : ℕ}
    (h : st.Agrees lazy b n) (hi : st.inside = false) (hl : lazy = some 0 → lazy' = some 0) :
    st.Agrees lazy' b n' := by
  cases st with
  | idle | testing | entering => trivial
  | reading b => exact ⟨hl h.1, h.2⟩
  | rechecking | creating | writing o | leaving => cases hi

theorem Inv.outside (h : Inv s) (ho : s.owner = some t) (hu : u ≠ t) :
    (s.stage u).inside = false := by
  by_contra hi
  have hl := (h.lock u).mp (by simpa using hi)
  rw [ho] at hl
  exact hu (Option.some.inj hl).symm

theorem Inv.owner_eq (h : Inv s) (hs : (s.stage t).inside = true) : s.owner = some t :=
  (h.lock t).mp hs

/-- A value other than null is the object. -/
theorem Inv.seen (h : Inv s) (hv : s.Visible t v) (hn : v ≠ none) : s.lazy = some 0 := by
  rcases hv with rfl | ⟨hv, -⟩
  · obtain ⟨o, ho⟩ := Option.ne_none_iff_exists'.mp hn
    rw [ho, (h.once o ho).1]
  · exact absurd hv hn

variable [DecidableEq T]

theorem update_cases {P : T → Stage → Prop} {st : Stage} (ht : P t st)
    (hs : ∀ u, u ≠ t → P u (s.stage u)) (u : T) : P u ((s.move t st).stage u) := by
  change P u (Function.update s.stage t st u)
  by_cases hu : u = t
  · subst hu
    rwa [Function.update_self]
  · rw [Function.update_of_ne hu]
    exact hs u hu

/-- A call goes on without leaving or entering the monitor. -/
theorem Inv.move (h : Inv s) {st : Stage} (hi : st.inside = (s.stage t).inside)
    (ha : st.Agrees s.lazy (s.synced t) s.created) : Inv (s.move t st) where
  lock := update_cases (P := fun u st => st.inside = true ↔ s.owner = some u)
    (by rw [hi]; exact h.lock t) (fun u _ => h.lock u)
  agrees := update_cases (P := fun u st => st.Agrees s.lazy (s.synced u) s.created) ha
    (fun u _ => h.agrees u)
  once := h.once
  free := h.free
  synced := h.synced
  results := h.results

theorem Inv.enter (h : Inv s) (ho : s.owner = none) : Inv { s.move t .rechecking with
    owner := some t
    synced := Function.update s.synced t (s.synced t || s.lazy.isSome) } where
  lock := by
    refine update_cases (P := fun u st => st.inside = true ↔ some t = some u)
      (by simp [Stage.inside]) (fun u hu => ?_)
    rw [h.lock u, ho]
    simp [hu.symm]
  agrees := by
    refine update_cases (P := fun u st => st.Agrees s.lazy
      (Function.update s.synced t (s.synced t || s.lazy.isSome) u) s.created) ?_ (fun u hu => ?_)
    · rw [Function.update_self]
      exact ⟨fun hl => by simp [hl], h.free ho⟩
    · rw [Function.update_of_ne hu]
      exact h.agrees u
  once := h.once
  free hn := by cases hn
  synced u hu := by
    change Function.update s.synced t (s.synced t || s.lazy.isSome) u = true at hu
    by_cases hut : u = t
    · subst hut
      rw [Function.update_self, Bool.or_eq_true] at hu
      exact hu.elim (h.synced u) id
    · rw [Function.update_of_ne hut] at hu
      exact h.synced u hu
  results := h.results

/-- A thread in the monitor sees what has been written. -/
theorem Inv.recheck (h : Inv s) (hs : s.stage t = .rechecking) (hv : s.Visible t v) :
    Inv (s.move t (if v = none then .creating else .leaving)) := by
  have ha := h.agrees t
  rw [hs] at ha
  split_ifs with hn
  · have hl : s.lazy = none := by
      rcases hv with hv | ⟨-, hv⟩
      · exact hv.symm.trans hn
      · by_contra hl
        have hsy := ha.1 (Option.isSome_iff_ne_none.mpr hl)
        rw [hv] at hsy
        cases hsy
    exact h.move (by rw [hs]; rfl) ⟨hl, ha.2 hl⟩
  · have hl := h.seen hv hn
    exact h.move (by rw [hs]; rfl) ⟨hl, ha.1 (by rw [hl]; rfl)⟩

theorem Inv.create (h : Inv s) (hs : s.stage t = .creating) :
    Inv { s.move t (.writing s.created) with created := s.created + 1 } := by
  have ha := h.agrees t
  rw [hs] at ha
  have ho := h.owner_eq (t := t) (by rw [hs]; rfl)
  refine ⟨?_, ?_, ?_, ?_, h.synced, h.results⟩
  · exact update_cases (P := fun u st => st.inside = true ↔ s.owner = some u)
      (by simp [Stage.inside, ho]) (fun u _ => h.lock u)
  · refine update_cases (P := fun u st => st.Agrees s.lazy (s.synced u) (s.created + 1))
      ⟨ha.1, by rw [ha.2], ha.2⟩ (fun u hu => ?_)
    exact agrees_of_not_inside (h.agrees u) (h.outside ho hu) id
  · intro o hl
    change s.lazy = some o at hl
    rw [ha.1] at hl
    cases hl
  · intro hn
    change s.owner = none at hn
    rw [ho] at hn
    cases hn

theorem Inv.write (h : Inv s) {o : ℕ} (hs : s.stage t = .writing o) :
    Inv { s.move t .leaving with
      lazy := some o, synced := Function.update s.synced t true } := by
  have ha := h.agrees t
  rw [hs] at ha
  obtain ⟨hl, hc, rfl⟩ := ha
  have ho := h.owner_eq (t := t) (by rw [hs]; rfl)
  refine ⟨?_, ?_, ?_, (fun _ hl' => by cases hl'), fun _ _ => rfl, ?_⟩
  · exact update_cases (P := fun u st => st.inside = true ↔ s.owner = some u)
      (by simp [Stage.inside, ho]) (fun u _ => h.lock u)
  · refine update_cases (P := fun u st => st.Agrees (some 0) (Function.update s.synced t true u)
      s.created) ?_ (fun u hu => ?_)
    · rw [Function.update_self]
      exact ⟨rfl, rfl⟩
    · rw [Function.update_of_ne hu]
      exact agrees_of_not_inside (h.agrees u) (h.outside ho hu) (fun _ => rfl)
  · intro o' ho'
    exact ⟨(Option.some.inj ho').symm, hc⟩
  · intro r hr
    exact (h.results r hr).imp_left (fun hr => ⟨hr.1, rfl⟩)

theorem Inv.leave (h : Inv s) (hs : s.stage t = .leaving) :
    Inv { s.move t (.reading true) with owner := none } := by
  have ha := h.agrees t
  rw [hs] at ha
  have ho := h.owner_eq (t := t) (by rw [hs]; rfl)
  refine ⟨?_, ?_, h.once, ?_, h.synced, h.results⟩
  · refine update_cases (P := fun u st => st.inside = true ↔ none = some u)
      (by simp [Stage.inside]) (fun u hu => ?_)
    rw [h.outside ho hu]
    simp
  · exact update_cases (P := fun u st => st.Agrees s.lazy (s.synced u) s.created)
      ⟨ha.1, fun _ => ha.2⟩ (fun u _ => h.agrees u)
  · intro _ hl
    change s.lazy = none at hl
    rw [ha.1] at hl
    cases hl

theorem Inv.read (h : Inv s) {b : Bool} (hs : s.stage t = .reading b) (hv : s.Visible t v) :
    Inv { s.move t .idle with results := s.results ++ [(v, b)] } := by
  have ha := h.agrees t
  rw [hs] at ha
  have hi : Inv (s.move t .idle) := h.move (by rw [hs]; rfl) trivial
  refine ⟨hi.lock, hi.agrees, hi.once, hi.free, hi.synced, ?_⟩
  intro r hr
  rcases List.mem_append.mp hr with hr | hr
  · exact h.results r hr
  · rw [List.mem_singleton.mp hr]
    rcases hv with rfl | ⟨rfl, hsy⟩
    · exact .inl ⟨ha.1, ha.1⟩
    · refine .inr (Prod.ext rfl ?_)
      by_contra hb
      have hb' := ha.2 (by simpa using hb)
      rw [hsy] at hb'
      cases hb'

theorem Inv.step (h : Inv s) {a : Action T} {u : State T} (he : step s a = some u) : Inv u := by
  cases a with
  | call t =>
      simp only [DoubleCheck.step, Option.ite_none_right_eq_some, Option.some.injEq] at he
      obtain ⟨hs, rfl⟩ := he
      exact h.move (by rw [hs]; rfl) trivial
  | test t v =>
      simp only [DoubleCheck.step, Option.ite_none_right_eq_some, Option.some.injEq] at he
      obtain ⟨⟨hs, hv⟩, rfl⟩ := he
      split_ifs with hn
      · exact h.move (by rw [hs]; rfl) trivial
      · exact h.move (by rw [hs]; rfl) ⟨h.seen hv hn, nofun⟩
  | enter t =>
      simp only [DoubleCheck.step, Option.ite_none_right_eq_some, Option.some.injEq] at he
      obtain ⟨⟨-, ho⟩, rfl⟩ := he
      exact h.enter ho
  | recheck t v =>
      simp only [DoubleCheck.step, Option.ite_none_right_eq_some, Option.some.injEq] at he
      obtain ⟨⟨hs, hv⟩, rfl⟩ := he
      exact h.recheck hs hv
  | create t =>
      simp only [DoubleCheck.step, Option.ite_none_right_eq_some, Option.some.injEq] at he
      obtain ⟨hs, rfl⟩ := he
      exact h.create hs
  | write t =>
      simp only [DoubleCheck.step] at he
      split at he
      · rename_i o hs
        exact Option.some.inj he ▸ h.write hs
      · cases he
  | leave t =>
      simp only [DoubleCheck.step, Option.ite_none_right_eq_some, Option.some.injEq] at he
      obtain ⟨hs, rfl⟩ := he
      exact h.leave hs
  | read t v =>
      simp only [DoubleCheck.step] at he
      split at he
      · rename_i b hs
        simp only [Option.ite_none_right_eq_some, Option.some.injEq] at he
        obtain ⟨hv, rfl⟩ := he
        exact h.read hs hv
      · cases he

theorem Inv.of_reaches {G : State T → Action T → Prop} (h : Reaches (getInstance T) G s) : Inv s :=
  h.invariant (fun _ hs => hs ▸ inv_start) (fun _ _ _ hi _ he => hi.step he)

omit [DecidableEq T] in
theorem Inv.created_le (h : Inv s) : s.created ≤ 1 := by
  cases hl : s.lazy with
  | some o => exact (h.once o hl).2.le
  | none =>
      cases ho : s.owner with
      | none => rw [h.free ho hl]; exact Nat.zero_le 1
      | some t =>
          have ha := h.agrees t
          have hi := (h.lock t).mpr ho
          cases hs : s.stage t with
          | rechecking => rw [hs] at ha; rw [ha.2 hl]; exact Nat.zero_le 1
          | creating => rw [hs] at ha; rw [ha.2]; exact Nat.zero_le 1
          | writing o => rw [hs] at ha; exact ha.2.1.le
          | leaving => rw [hs] at ha; rw [ha.1] at hl; cases hl
          | idle | testing | entering | reading b => rw [hs] at hi; cases hi

omit [DecidableEq T] in
theorem Inv.returned (h : Inv s) {o : ℕ} {b : Bool} (hr : (some o, b) ∈ s.results) :
    o = 0 ∧ s.created = 1 := by
  rcases h.results _ hr with ⟨ho, hlazy⟩ | hr
  · exact ⟨Option.some.inj ho, (h.once 0 hlazy).2⟩
  · cases hr

/-- Whatever the threads do and whatever their reads of the field see, at most one object is made,
all calls that return an object return the same, which has been made, and only a call that has not
gone through the monitor can return null. -/
theorem getInstance_unique (h : Reachable (getInstance T) s) :
    s.created ≤ 1 ∧ (∀ o o' b b', (some o, b) ∈ s.results → (some o', b') ∈ s.results → o = o') ∧
      (∀ o b, (some o, b) ∈ s.results → o < s.created) ∧ (none, true) ∉ s.results := by
  have hi := Inv.of_reaches h
  refine ⟨hi.created_le, ?_, ?_, ?_⟩
  · intro o o' b b' hr hr'
    exact (hi.returned hr).1.trans (hi.returned hr').1.symm
  · intro o b hr
    obtain ⟨rfl, hcreated⟩ := hi.returned hr
    omega
  · intro hr
    rcases hi.results _ hr with hr | hr
    · cases hr.1
    · cases hr

/-- The second thread sees the object in its test and null in its last read. -/
theorem getInstance_unique_null : ∃ s : State (Fin 2), Reachable (getInstance _) s ∧
    s.results = [(some 0, true), (none, false)] ∧ s.created ≤ 1 ∧
    (∀ o o' b b', (some o, b) ∈ s.results → (some o', b') ∈ s.results → o = o') ∧
    (∀ o b, (some o, b) ∈ s.results → o < s.created) ∧ (none, true) ∉ s.results := by
  obtain ⟨s, hs, hr⟩ := Reaches.exists_of_run (G := fun _ _ => True)
    (Q := fun s : State (Fin 2) => s.results = [(some 0, true), (none, false)])
    (.init (M := getInstance (Fin 2)) rfl)
    [.call 0, .test 0 none, .enter 0, .recheck 0 none, .create 0, .write 0, .call 1,
      .test 1 (some 0), .leave 0, .read 0 (some 0), .read 1 none] (by decide +kernel)
  exact ⟨s, hs, hr, getInstance_unique hs⟩

/-- If every read sees the last write, no call returns null. -/
theorem getInstance_ne_null (h : Reaches (getInstance T) Latest s) (r : Option ℕ × Bool)
    (hr : r ∈ s.results) : r.1 ≠ none := by
  refine (h.invariant (I := fun s => Inv s ∧ ∀ r ∈ s.results, r.1 ≠ none) ?_ ?_).2 r hr
  · rintro _ rfl
    exact ⟨inv_start, fun _ hr => absurd hr List.not_mem_nil⟩
  · rintro s a u ⟨hi, hr⟩ hg he
    refine ⟨hi.step he, ?_⟩
    cases a with
    | read t v =>
        simp only [getInstance, DoubleCheck.step] at he
        split at he
        · rename_i b hs
          simp only [Option.ite_none_right_eq_some, Option.some.injEq] at he
          obtain ⟨-, rfl⟩ := he
          have ha := hi.agrees t
          rw [hs] at ha
          intro r hr'
          rcases List.mem_append.mp hr' with hr' | hr'
          · exact hr r hr'
          · rw [List.mem_singleton.mp hr']
            change v ≠ none
            rw [show v = s.lazy from hg, ha.1]
            simp
        · cases he
    | write t =>
        simp only [getInstance, DoubleCheck.step] at he
        split at he
        · exact Option.some.inj he ▸ hr
        · cases he
    | call t | test t v | enter t | recheck t v | create t | leave t =>
        simp only [getInstance, DoubleCheck.step, Option.ite_none_right_eq_some,
          Option.some.injEq] at he
        obtain ⟨-, rfl⟩ := he
        exact hr

theorem getInstance_ne_null_two : ∃ s : State (Fin 2), Reaches (getInstance _) Latest s ∧
    (some 0, false) ∈ s.results ∧ ∀ r ∈ s.results, r.1 ≠ none := by
  obtain ⟨s, hs, hr⟩ := Reaches.exists_of_run (G := Latest)
    (Q := fun s : State (Fin 2) => (some 0, false) ∈ s.results)
    (.init (M := getInstance (Fin 2)) rfl)
    [.call 0, .test 0 none, .enter 0, .recheck 0 none, .create 0, .write 0, .call 1,
      .test 1 (some 0), .leave 0, .read 0 (some 0), .read 1 (some 0)] (by decide +kernel)
  exact ⟨s, hs, hr, getInstance_ne_null hs⟩

end Inv

end Hatch.DoubleCheck
