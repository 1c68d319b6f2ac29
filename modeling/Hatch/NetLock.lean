import Hatch.NetRoster

/-!
# Balance of the user list's critical section

Every list operation leaves the critical section as often as it enters it, except
`hatchIsUserInList` on a name that is in the list, which leaves it once too often.
Between messages the section is therefore free exactly as long as no handler asks
for a listed name.
-/

namespace Hatch.Net

open ByteLayout FaultProgram Prog TransitionSystem

/-- Called in state `s`, `p` leaves the critical section as often as it enters it, if it returns. -/
def BalancedOn {α : Type} (p : Handler α) (s : Process) : Prop :=
  ∀ a t, p s = .ok (a, t) → t.userLock.depth = s.userLock.depth

theorem balancedOn_of_wp {α : Type} {p : Handler α} {s : Process}
    (h : wp p True (fun _ t => t.userLock = s.userLock.cycle) s) : BalancedOn p s := by
  intro a t hr
  rw [wp_true_of_run hr h]
  rfl

theorem balancedOn_hatchLocateUser (name : Option Bytes) (s : Process) :
    BalancedOn (hatchLocateUser name) s := by
  apply balancedOn_of_wp
  cases name with
  | none =>
      rw [wp_hatchLocateUser_none]
      split
      · rfl
      · trivial
  | some n => exact (wp_hatchLocateUser_some n _).mpr rfl

theorem balancedOn_hatchPushUser (u : UserInfo) (s : Process) :
    BalancedOn (hatchPushUser u) s := by
  apply balancedOn_of_wp
  rw [wp_hatchPushUser]
  split <;> rfl

theorem balancedOn_hatchPopUser (n : Bytes) (s : Process) : BalancedOn (hatchPopUser n) s := by
  apply balancedOn_of_wp
  rw [wp_hatchPopUser]

theorem wp_groupLoop_userLock (p : PMsgSt) (us : List UserInfo) (s : Process) :
    wp (hatchPushSendMsgGroupLoop p us) True (fun _ t => t.userLock = s.userLock) s := by
  induction us generalizing s with
  | nil => rfl
  | cons u us ih =>
      rw [hatchPushSendMsgGroupLoop]
      cases p with
      | received =>
          simp only [wp_bind, wp_readISize_received, wp_readBytes_received, wp_require,
            wp_hatchPushSendMsgList_fresh]
          split_ifs
          all_goals first
            | trivial
            | exact ih _
      | fresh b =>
          simp only [wp_bind, wp_readISize_fresh, wp_readBytes_fresh, wp_require,
            wp_hatchPushSendMsgList_fresh]
          split_ifs
          all_goals first
            | trivial
            | exact ih _

theorem balancedOn_hatchPushSendMsgGroup (st : ℕ) (p : PMsgSt) (s : Process) :
    BalancedOn (hatchPushSendMsgGroup st p) s := by
  apply balancedOn_of_wp
  simp only [hatchPushSendMsgGroup, hatchEnter, hatchLeave, wp_bind, wp_modify, wp_get, wp_require]
  split
  · refine wp_mono ?_ (wp_groupLoop_userLock p _ _)
    intro _ t ht
    cases p with
    | received =>
        simp only [wp_dispose_received, wp_pure, Process.handOver]
        rw [ht, CriticalSection.enter_leave]
    | fresh b =>
        simp only [wp_dispose_fresh, wp_pure]
        rw [ht, CriticalSection.enter_leave]
  · trivial

theorem balancedOn_hatchIsUserInList (n : Bytes) (s : Process) :
    BalancedOn (hatchIsUserInList n) s ↔ n ∉ names s.userList := by
  constructor
  · intro h hn
    have hd := h _ _ (hatchIsUserInList_run n)
    simp [hn, CriticalSection.cycle, CriticalSection.leave] at hd
  · intro hn
    apply balancedOn_of_wp
    rw [wp_hatchIsUserInList, if_neg hn]

/-- Handling `b` on the server looks up a listed name with `hatchIsUserInList`. -/
def ServerFinds (l : List UserInfo) (b : Bytes) : Prop :=
  (IsChat b .update ∨ IsChat b .logout) ∧ msgUserName b ∈ names l

instance (l : List UserInfo) (b : Bytes) : Decidable (ServerFinds l b) :=
  inferInstanceAs (Decidable (_ ∧ _))

/-- Handling `b` on a client looks up a listed name with `hatchIsUserInList`. -/
def ClientFinds (l : List UserInfo) (b : Bytes) : Prop :=
  (IsChat b .text ∨ IsChat b .backSyn ∨ IsChat b .logout ∨
    IsChat b .update ∧ ∃ own, l[1]? = some own ∧ own.Active) ∧ msgUserName b ∈ names l

section Effect

variable {b : Bytes} {l l' : List UserInfo} {k k' : CriticalSection} {q : ℕ} {o : Owner} {m : Bool}

theorem ServerEffect.lock_free (h : ServerEffect b l k q l' k' o m) (hb : ¬ ServerFinds l b)
    (hk : k = .free) : k' = .free := by
  subst hk
  cases h with
  | updateKnown hc hn => exact absurd ⟨.inl hc, hn⟩ hb
  | logoutKnown hc hn hne => exact absurd ⟨.inr hc, hn⟩ hb
  | _ => rfl

theorem ClientEffect.lock_free (h : ClientEffect b l k q l' k' o) (hb : ¬ ClientFinds l b)
    (hk : k = .free) : k' = .free := by
  subst hk
  cases h with
  | textKnown hc hn => exact absurd ⟨.inl hc, hn⟩ hb
  | textRaised hc hn i u hi => exact absurd ⟨.inl hc, hn⟩ hb
  | updateKnown hc own hi hs hn =>
      exact absurd ⟨.inr (.inr (.inr ⟨hc, own, hi, hs⟩)), hn⟩ hb
  | backSynKnown hc hn => exact absurd ⟨.inr (.inl hc), hn⟩ hb
  | logoutOwn hc hn own hi he => exact absurd ⟨.inr (.inr (.inl hc)), hn⟩ hb
  | logoutOther hc hn own hi he => exact absurd ⟨.inr (.inr (.inl hc)), hn⟩ hb
  | _ => rfl

end Effect

/-- Which list operations are balanced, and what this means between messages: the lock
stays free, never having gone below its start, while no listed name is looked up. -/
theorem userLock_balanced (s : Process) (u : UserInfo) (n : Bytes) (name : Option Bytes) (st : ℕ)
    (p : PMsgSt) :
    BalancedOn (hatchPushUser u) s ∧ BalancedOn (hatchPopUser n) s ∧
    BalancedOn (hatchLocateUser name) s ∧ BalancedOn (hatchPushSendMsgGroup st p) s ∧
    (BalancedOn (hatchIsUserInList n) s ↔ n ∉ names s.userList) ∧
    (∀ start, start.userLock = .free →
      Reaches (messages serverProtocol start) (fun s m => ¬ ServerFinds s.userList m.1) s →
        s.userLock = .free) ∧
    ∀ start, start.userLock = .free →
      Reaches (messages clientProtocol start) (fun s m => ¬ ClientFinds s.userList m.1) s →
        s.userLock = .free := by
  refine ⟨balancedOn_hatchPushUser u s, balancedOn_hatchPopUser n s,
    balancedOn_hatchLocateUser name s, balancedOn_hatchPushSendMsgGroup st p s,
    balancedOn_hatchIsUserInList n s, ?_, ?_⟩
  · intro start h0 h
    refine Reaches.invariant (I := fun s => s.userLock = .free) ?_ ?_ h
    · rintro _ rfl
      exact h0
    · intro s m t hs hm he
      exact (server_effect he).lock_free hm hs
  · intro start h0 h
    refine Reaches.invariant (I := fun s => s.userLock = .free) ?_ ?_ h
    · rintro _ rfl
      exact h0
    · intro s m t hs hm he
      exact (client_effect he).lock_free hm hs

/-- After the Login of `bob` the lock of the server is free. -/
theorem userLock_balanced_login :
    ∃ t, messageStep serverProtocol (serverStart (fun _ => 0))
      (arrivingRequest .login bobName.bytes, .empty) = some t ∧ t.userLock = .free := by
  obtain ⟨t, ht, h⟩ := messages_one_of_isSome serverProtocol (serverStart (fun _ => 0))
    (arrivingRequest .login bobName.bytes, .empty) (fun s m => ¬ ServerFinds s.userList m.1)
    (by decide +kernel) (by decide +kernel)
  have hl := userLock_balanced t serverUser serverName none 0 .received
  exact ⟨t, ht, hl.2.2.2.2.2.1 _ rfl h⟩

/-- One Login and Logout of `bob` leave the lock of the server below its start. -/
theorem userLock_unbalanced_logout :
    (run (messages serverProtocol (serverStart (fun _ => 0))) (serverStart (fun _ => 0))
      [(arrivingRequest .login bobName.bytes, .empty),
        (arrivingRequest .logout bobName.bytes, .empty)]).map Process.userLock =
      some ⟨-1, -1⟩ := by
  decide +kernel

end Hatch.Net
