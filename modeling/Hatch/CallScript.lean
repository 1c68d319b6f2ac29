import Mathlib.Data.Nat.Notation
import Mathlib.Logic.Basic

/-!
# Programs of calls with scripted outcomes

A program makes calls to an environment, and a script says how each of them turns out. The
script may end before the program does, which leaves the program stopped between two calls:
a run on every script is a stop at every moment. `Meets A I p Q s` says that `p`, started in
`s` with outcomes in `A`, is in a state of `I` wherever it stops and returns with `Q`, and
`Returns` that some script makes the program return.
-/

namespace CallScript

variable {σ ω α β : Type}

inductive Run (σ ω α : Type) where
  | stopped (s : σ)
  | undefined (s : σ)
  | done (a : α) (rest : List ω) (s : σ)

def Run.state : Run σ ω α → σ
  | .stopped s | .undefined s | .done _ _ s => s

def Prog (σ ω α : Type) : Type := List ω → σ → Run σ ω α

instance : Monad (Prog σ ω) where
  pure a := fun os s => .done a os s
  bind p f := fun os s => match p os s with
    | .stopped t => .stopped t
    | .undefined t => .undefined t
    | .done a rest t => f a rest t

theorem bind_apply (p : Prog σ ω α) (f : α → Prog σ ω β) (os : List ω) (s : σ) :
    (p >>= f) os s = match p os s with
      | .stopped t => .stopped t
      | .undefined t => .undefined t
      | .done a rest t => f a rest t := rfl

theorem map_eq_done {p : Prog σ ω α} {f : α → β} {os rest : List ω} {s t : σ} {b : β}
    (h : (f <$> p) os s = .done b rest t) : ∃ a, p os s = .done a rest t ∧ f a = b := by
  change (p >>= fun a => pure (f a)) os s = _ at h
  rw [bind_apply] at h
  cases hr : p os s with
  | stopped u | undefined u =>
      rw [hr] at h
      exact nomatch h
  | done a r u =>
      rw [hr] at h
      obtain ⟨rfl, rfl, rfl⟩ := Run.done.inj h
      exact ⟨a, rfl, rfl⟩

instance : LawfulMonad (Prog σ ω) := by
  refine LawfulMonad.mk' (Prog σ ω) (fun p => ?_) (fun _ _ => rfl) (fun p f g => ?_)
  · funext os s
    change (p >>= fun a => pure (id a)) os s = p os s
    rw [bind_apply]
    cases p os s with
    | stopped t | undefined t => rfl
    | done a rest t => rfl
  · funext os s
    rw [bind_apply, bind_apply, bind_apply]
    cases p os s with
    | stopped t | undefined t => rfl
    | done a rest t => rfl

/-- A call takes the next outcome of the script. -/
def call (f : σ → ω → α × σ) : Prog σ ω α
  | [], s => .stopped s
  | o :: os, s => .done (f s o).1 os (f s o).2

def get : Prog σ ω σ := fun os s => .done s os s

theorem get_apply (os : List ω) (s : σ) : get os s = .done s os s := rfl

def undefined : Prog σ ω α := fun _ s => .undefined s

/-- At most `n` rounds; a round goes on with `.inl` and leaves with `.inr`. -/
def iterate (body : β → Prog σ ω (β ⊕ α)) : ℕ → β → Prog σ ω α
  | 0, _ => fun _ s => .stopped s
  | n + 1, b => body b >>= Sum.elim (iterate body n) pure

/-- A loop whose rounds make at least one call is bounded by the script. -/
def loop (body : β → Prog σ ω (β ⊕ α)) (b : β) : Prog σ ω α :=
  fun os => iterate body (os.length + 1) b os

theorem map_iterate {γ : Type} (f : α → γ) (body : β → Prog σ ω (β ⊕ α)) (n : ℕ) (b : β) :
    f <$> iterate body n b = iterate (fun b => Sum.map id f <$> body b) n b := by
  induction n generalizing b with
  | zero => rfl
  | succ n ih =>
      rw [iterate, iterate, map_bind, bind_map_left]
      refine bind_congr fun r => ?_
      cases r with
      | inl b => exact ih b
      | inr a => rfl

/-- What is done with the result of a loop can be done in its rounds. -/
theorem map_loop {γ : Type} (f : α → γ) (body : β → Prog σ ω (β ⊕ α)) (b : β) :
    f <$> loop body b = loop (fun b => Sum.map id f <$> body b) b := by
  funext os
  exact congrFun (map_iterate f body (os.length + 1) b) os

variable {A : ω → Prop} {I : σ → Prop} {s t : σ} {a : α}

def Meets (A : ω → Prop) (I : σ → Prop) (p : Prog σ ω α) (Q : α → σ → Prop) (s : σ) : Prop :=
  ∀ os, (∀ o ∈ os, A o) → match p os s with
    | .stopped t => I t
    | .undefined t => I t
    | .done a rest t => (∀ o ∈ rest, A o) ∧ Q a t

namespace Meets

theorem pure {Q : α → σ → Prop} (h : Q a s) : Meets A I (Pure.pure a) Q s :=
  fun _ ho => ⟨ho, h⟩

/-- With no condition on the outcomes and the states there is nothing to show. -/
theorem of_forall {Q : α → σ → Prop} (hA : ∀ o, A o) (p : Prog σ ω α) (hQ : ∀ a t, Q a t) :
    Meets A (fun _ => True) p Q s := by
  intro os _
  cases p os s with
  | stopped t | undefined t => trivial
  | done a rest t => exact ⟨fun o _ => hA o, hQ a t⟩

theorem bind {p : Prog σ ω α} {f : α → Prog σ ω β} {Q : β → σ → Prop}
    (h : Meets A I p (fun a t => Meets A I (f a) Q t) s) : Meets A I (p >>= f) Q s := by
  intro os ho
  have hp := h os ho
  rw [bind_apply]
  cases hr : p os s with
  | stopped t | undefined t => simpa only [hr] using hp
  | done a rest t =>
      rw [hr] at hp
      exact hp.2 rest hp.1

theorem mono {p : Prog σ ω α} {Q Q' : α → σ → Prop} (h : Meets A I p Q s)
    (hQ : ∀ a t, Q a t → Q' a t) : Meets A I p Q' s := by
  intro os ho
  have hp := h os ho
  cases hr : p os s with
  | stopped t | undefined t => simpa only [hr] using hp
  | done a rest t =>
      rw [hr] at hp
      exact ⟨hp.1, hQ a t hp.2⟩

theorem map {p : Prog σ ω α} {f : α → β} {Q : β → σ → Prop}
    (h : Meets A I p (fun a t => Q (f a) t) s) : Meets A I (f <$> p) Q s :=
  bind (h.mono fun _ _ hq => pure hq)

theorem call {f : σ → ω → α × σ} {Q : α → σ → Prop} (hi : I s)
    (h : ∀ o, A o → Q (f s o).1 (f s o).2) : Meets A I (call f) Q s := by
  intro os ho
  cases os with
  | nil => exact hi
  | cons o os =>
      exact ⟨fun o' h' => ho o' (List.mem_cons_of_mem o h'), h o (ho o List.mem_cons_self)⟩

theorem get {Q : σ → σ → Prop} (h : Q s s) : Meets A I get Q s := fun _ ho => ⟨ho, h⟩

theorem undefined {Q : α → σ → Prop} (h : I s) : Meets A I undefined Q s := fun _ _ => h

theorem post_of_done {p : Prog σ ω α} {Q : α → σ → Prop} (h : Meets A I p Q s) {os rest : List ω}
    (ho : ∀ o ∈ os, A o) (hr : p os s = .done a rest t) : Q a t := by
  have hp := h os ho
  rw [hr] at hp
  exact hp.2

/-- A postcondition that keeps `I` makes it hold wherever a run is left. -/
theorem state {p : Prog σ ω α} (h : Meets A I p (fun _ t => I t) s) {os : List ω}
    (ho : ∀ o ∈ os, A o) : I (p os s).state := by
  have hp := h os ho
  cases hr : p os s with
  | stopped t | undefined t => simpa only [hr, Run.state] using hp
  | done a rest t =>
      rw [hr] at hp
      exact hp.2

theorem iterate {body : β → Prog σ ω (β ⊕ α)} {J : β → σ → Prop} {Q : α → σ → Prop}
    (hi : ∀ b s, J b s → I s) (hb : ∀ b s, J b s → Meets A I (body b) (Sum.elim J Q) s)
    (n : ℕ) {b : β} (h : J b s) : Meets A I (iterate body n b) Q s := by
  induction n generalizing b s with
  | zero => exact fun _ _ => hi b s h
  | succ n ih =>
      refine bind ((hb b s h).mono fun r t hr => ?_)
      cases r with
      | inl b => exact ih hr
      | inr a => exact pure hr

/-- The rule for loops, with an invariant between the rounds. -/
theorem loop {body : β → Prog σ ω (β ⊕ α)} (J : β → σ → Prop) {Q : α → σ → Prop}
    (hi : ∀ b s, J b s → I s) (hb : ∀ b s, J b s → Meets A I (body b) (Sum.elim J Q) s)
    {b : β} (h : J b s) : Meets A I (loop body b) Q s :=
  fun os ho => iterate hi hb (os.length + 1) h os ho

end Meets

/-- The program returns `a` in state `t` and has used up just the script `os`. -/
def Returns (p : Prog σ ω α) (os : List ω) (s : σ) (a : α) (t : σ) : Prop :=
  ∀ rest, p (os ++ rest) s = .done a rest t

namespace Returns

theorem pure (a : α) (s : σ) : Returns (Pure.pure a : Prog σ ω α) [] s a s := fun _ => rfl

theorem bind {p : Prog σ ω α} {f : α → Prog σ ω β} {os os' : List ω} {u : σ} {b : β}
    (hp : Returns p os s a t) (hf : Returns (f a) os' t b u) :
    Returns (p >>= f) (os ++ os') s b u := by
  intro rest
  have hr := hp (os' ++ rest)
  rw [← List.append_assoc] at hr
  rw [bind_apply, hr]
  exact hf rest

theorem call_bind {f : σ → ω → α × σ} {g : α → Prog σ ω β} {o : ω} {os : List ω} {b : β}
    (h : Returns (g (f s o).1) os (f s o).2 b t) : Returns (call f >>= g) (o :: os) s b t := h

theorem get_bind {g : σ → Prog σ ω β} {os : List ω} {b : β} (h : Returns (g s) os s b t) :
    Returns (get >>= g) os s b t := h

theorem loop_done {body : β → Prog σ ω (β ⊕ α)} {os : List ω} {b : β}
    (h : Returns (body b) os s (.inr a) t) : Returns (loop body b) os s a t := by
  intro rest
  rw [loop, iterate, bind_apply, h rest]
  rfl

theorem loop_next {body : β → Prog σ ω (β ⊕ α)} {o : ω} {os : List ω} {b c : β} {u : σ}
    (h : Returns (body b) [o] s (.inl c) t) (hl : Returns (loop body c) os t a u) :
    Returns (loop body b) (o :: os) s a u := by
  intro rest
  have hr := h (os ++ rest)
  rw [loop, iterate, bind_apply]
  rw [List.singleton_append] at hr
  rw [List.cons_append, hr]
  exact hl rest

end Returns

theorem loop_exit {body : β → Prog σ ω (β ⊕ α)} {os rest : List ω} {b : β}
    (h : body b os s = .done (.inr a) rest t) : loop body b os s = .done a rest t := by
  rw [loop, iterate, bind_apply, h]
  rfl

theorem loop_step {body : β → Prog σ ω (β ⊕ α)} {o : ω} {os : List ω} {b c : β}
    (h : body b (o :: os) s = .done (.inl c) os t) :
    loop body b (o :: os) s = loop body c os t := by
  rw [loop, iterate, bind_apply, h]
  rfl

/-- A loop returns if each of its rounds leaves it or takes one outcome, a bound never grows, and
the script has more outcomes that make it smaller than the bound has room for. -/
theorem loop_returns {body : β → Prog σ ω (β ⊕ α)} (bound : β → ℕ) (counts : ω → Bool)
    (hb : ∀ b s, (∀ os, ∃ a rest t, body b os s = .done (.inr a) rest t) ∨
      ∀ o os, (∃ a t, body b (o :: os) s = .done (.inr a) os t) ∨
        ∃ c t, body b (o :: os) s = .done (.inl c) os t ∧ bound c ≤ bound b ∧
          (counts o = true → bound c < bound b))
    {os : List ω} {b : β} (h : bound b < os.countP counts) :
    ∃ a rest t, loop body b os s = .done a rest t := by
  induction os generalizing b s with
  | nil => exact absurd h (Nat.not_lt_zero _)
  | cons o os ih =>
      rcases hb b s with hexit | hround
      · obtain ⟨a, rest, t, hr⟩ := hexit (o :: os)
        exact ⟨a, rest, t, loop_exit hr⟩
      rcases hround o os with ⟨a, t, hr⟩ | ⟨c, t, hr, hle, hlt⟩
      · exact ⟨a, os, t, loop_exit hr⟩
      rw [loop_step hr]
      apply ih
      by_cases ho : counts o = true
      · rw [List.countP_cons_of_pos ho] at h
        have := hlt ho
        omega
      · rw [List.countP_cons_of_neg ho] at h
        omega

end CallScript
