import Hatch.NetCommon

/-!
# The port search of `hatchBind`

`CHatchNet::hatchBind` calls `bind` on one port after the other as long as the port is in use. The
loop has no condition of its own: it is left by a `return`, at the latest at port 65535, where the
case of a port in use falls through to that of any other error.
-/

namespace Hatch.Net

/-- `htons` and `ntohs` exchange the two bytes. -/
def htons (x : UInt16) : UInt16 := UInt16.ofNat (x.toNat % 256 * 256 + x.toNat / 256)

def ntohs (x : UInt16) : UInt16 := htons x

def wsaeAddrInUse : UInt32 := 10048

/-- `bind` returns 0, or `SOCKET_ERROR` with a code for `GetLastError`. -/
inductive BindOutcome
  | success
  | socketError (code : UInt32)
  deriving DecidableEq

/-- What `hatchBind` returns, the address it leaves and the addresses it has given to `bind`. -/
structure BindResult where
  ret : ℤ
  name : SockAddrIn
  tried : List SockAddrIn

def SockAddrIn.atPort (name : SockAddrIn) (port : ℕ) : SockAddrIn :=
  { name with port := htons (UInt16.ofNat port) }

/-- The loop of `hatchBind`; without a result it is still running after `fuel` rounds. -/
def hatchBindLoop (bind : SockAddrIn → BindOutcome) :
    ℕ → SockAddrIn → ℕ → List SockAddrIn → Option BindResult
  | 0, _, _, _ => none
  | fuel + 1, name, port, tried =>
      match bind name with
      | .success => some ⟨0, name, tried ++ [name]⟩
      | .socketError code =>
          if code = wsaeAddrInUse ∧ port < 65535 then
            hatchBindLoop bind fuel (name.atPort (port + 1)) (port + 1) (tried ++ [name])
          else some ⟨-1, name, tried ++ [name]⟩

def hatchBind (bind : SockAddrIn → BindOutcome) (fuel : ℕ) (name : SockAddrIn) :
    Option BindResult :=
  hatchBindLoop bind fuel name (ntohs name.port).toNat []

/-- From `start` on all ports are in use up to `port`, which is free. -/
structure FirstFree (bind : SockAddrIn → BindOutcome) (name : SockAddrIn) (start port : ℕ) :
    Prop where
  start_le : start ≤ port
  port_le : port ≤ 65535
  free : bind (name.atPort port) = .success
  inUse : ∀ q, start ≤ q → q < port → bind (name.atPort q) = .socketError wsaeAddrInUse

variable {bind : SockAddrIn → BindOutcome} {name : SockAddrIn} {start port : ℕ}

theorem toNat_htons (x : UInt16) : (htons x).toNat = x.toNat % 256 * 256 + x.toNat / 256 := by
  have hx := x.toNat_lt
  rw [htons, UInt16.toNat_ofNat']
  omega

theorem ntohs_htons (x : UInt16) : ntohs (htons x) = x := by
  have hx := x.toNat_lt
  have hlow : (x.toNat % 256 * 256 + x.toNat / 256) % 256 = x.toNat / 256 := by omega
  have hhigh : (x.toNat % 256 * 256 + x.toNat / 256) / 256 = x.toNat % 256 := by omega
  apply UInt16.toNat_inj.mp
  rw [ntohs, toNat_htons, toNat_htons, hlow, hhigh]
  omega

theorem ntohs_atPort (name : SockAddrIn) {port : ℕ} (h : port ≤ 65535) :
    (ntohs (name.atPort port).port).toNat = port := by
  change (ntohs (htons (UInt16.ofNat port))).toNat = port
  rw [ntohs_htons, UInt16.toNat_ofNat']
  omega

/-- The search starts at the port of the address itself. -/
theorem atPort_self (name : SockAddrIn) : name.atPort (ntohs name.port).toNat = name := by
  have hport : htons (UInt16.ofNat (ntohs name.port).toNat) = name.port := by
    rw [UInt16.ofNat_toNat]
    exact ntohs_htons name.port
  rw [SockAddrIn.atPort, hport]

namespace FirstFree

theorem self (hport : port ≤ 65535) (h : bind (name.atPort port) = .success) :
    FirstFree bind name port port :=
  ⟨le_rfl, hport, h, fun _ hq hlt => absurd hq (Nat.not_le.mpr hlt)⟩

theorem of_succ (h : FirstFree bind name (start + 1) port)
    (hstart : bind (name.atPort start) = .socketError wsaeAddrInUse) :
    FirstFree bind name start port := by
  refine ⟨Nat.le_of_succ_le h.start_le, h.port_le, h.free, fun q hq hlt => ?_⟩
  rcases Nat.eq_or_lt_of_le hq with rfl | hq
  · exact hstart
  · exact h.inUse q hq hlt

/-- No port is free behind one that is neither free nor in use. -/
theorem succ (h : FirstFree bind name start port)
    (hstart : bind (name.atPort start) ≠ .success) : FirstFree bind name (start + 1) port := by
  have hne : start ≠ port := by
    rintro rfl
    exact hstart h.free
  exact ⟨Nat.lt_of_le_of_ne h.start_le hne, h.port_le, h.free,
    fun q hq => h.inUse q (Nat.le_of_succ_le hq)⟩

theorem unique {p q : ℕ} (hp : FirstFree bind name start p) (hq : FirstFree bind name start q) :
    p = q := by
  rcases Nat.lt_trichotomy p q with hlt | heq | hgt
  · have huse := hq.inUse p hp.start_le hlt
    rw [hp.free] at huse
    cases huse
  · exact heq
  · have huse := hp.inUse q hq.start_le hgt
    rw [hq.free] at huse
    cases huse

end FirstFree

/-- The search found the first free port from `start` on, or there is none. -/
def Finds (bind : SockAddrIn → BindOutcome) (name : SockAddrIn) (start : ℕ) (r : BindResult) :
    Prop :=
  (∃ port, FirstFree bind name start port ∧ r.ret = 0 ∧ r.name = name.atPort port) ∨
    (∀ port, ¬ FirstFree bind name start port) ∧ r.ret = -1

theorem Finds.of_succ {r : BindResult} (h : Finds bind name (start + 1) r)
    (hstart : bind (name.atPort start) = .socketError wsaeAddrInUse) :
    Finds bind name start r := by
  rcases h with ⟨port, hport, hr⟩ | ⟨hnone, hr⟩
  · exact .inl ⟨port, hport.of_succ hstart, hr⟩
  · refine .inr ⟨fun port hport => hnone port (hport.succ ?_), hr⟩
    rw [hstart]
    intro h
    cases h

/-- The loop ends after at most so many rounds, with the right result. -/
def EndsWithin (bind : SockAddrIn → BindOutcome) (name : SockAddrIn) (port : ℕ)
    (tried : List SockAddrIn) (rounds : ℕ) : Prop :=
  ∃ r, (∀ fuel, rounds ≤ fuel → hatchBindLoop bind fuel (name.atPort port) port tried = some r) ∧
    r.tried.length ≤ tried.length + rounds ∧ Finds bind name port r

variable {tried : List SockAddrIn} {rounds : ℕ}

theorem EndsWithin.mono (h : EndsWithin bind name port tried rounds) {rounds' : ℕ}
    (hle : rounds ≤ rounds') : EndsWithin bind name port tried rounds' := by
  obtain ⟨r, hrun, hlen, hfinds⟩ := h
  exact ⟨r, fun fuel hfuel => hrun fuel (hle.trans hfuel), hlen.trans (Nat.add_le_add_left hle _),
    hfinds⟩

/-- One round ends the loop if it has the same result with any fuel. -/
theorem endsWithin_one {r : BindResult}
    (hrun : ∀ fuel, hatchBindLoop bind (fuel + 1) (name.atPort port) port tried = some r)
    (hlen : r.tried.length = tried.length + 1) (hfinds : Finds bind name port r) :
    EndsWithin bind name port tried 1 := by
  refine ⟨r, fun fuel hfuel => ?_, hlen.le, hfinds⟩
  obtain ⟨fuel, rfl⟩ := Nat.exists_eq_succ_of_ne_zero (Nat.ne_zero_of_lt hfuel)
  exact hrun fuel

theorem endsWithin_of_success (hport : port ≤ 65535)
    (houtcome : bind (name.atPort port) = .success) :
    EndsWithin bind name port tried 1 := by
  apply endsWithin_one (r := ⟨0, name.atPort port, tried ++ [name.atPort port]⟩)
  · intro fuel
    rw [hatchBindLoop, houtcome]
  · simp
  · exact .inl ⟨port, .self hport houtcome, rfl, rfl⟩

/-- An error that does not lead to the next port ends the search. -/
theorem endsWithin_of_error {code : UInt32}
    (houtcome : bind (name.atPort port) = .socketError code)
    (hstop : ¬ (code = wsaeAddrInUse ∧ port < 65535)) : EndsWithin bind name port tried 1 := by
  apply endsWithin_one (r := ⟨-1, name.atPort port, tried ++ [name.atPort port]⟩)
  · intro fuel
    rw [hatchBindLoop, houtcome]
    exact if_neg hstop
  · simp
  · refine .inr ⟨fun p hp => ?_, rfl⟩
    -- a free port behind this one would need it to be in use, and not to be the last
    have hnext : port < p := by
      apply FirstFree.start_le (hp.succ _)
      rw [houtcome]
      intro h
      cases h
    have huse := hp.inUse port le_rfl hnext
    rw [houtcome] at huse
    cases huse
    exact hstop ⟨rfl, hnext.trans_le hp.port_le⟩

theorem EndsWithin.retry
    (h : EndsWithin bind name (port + 1) (tried ++ [name.atPort port]) rounds)
    (houtcome : bind (name.atPort port) = .socketError wsaeAddrInUse) (hport : port < 65535) :
    EndsWithin bind name port tried (rounds + 1) := by
  obtain ⟨r, hrun, hlen, hfinds⟩ := h
  refine ⟨r, fun fuel hfuel => ?_, ?_, hfinds.of_succ houtcome⟩
  · obtain ⟨fuel, rfl⟩ := Nat.exists_eq_succ_of_ne_zero (Nat.ne_zero_of_lt hfuel)
    rw [hatchBindLoop, houtcome, ← hrun fuel (Nat.le_of_succ_le_succ hfuel)]
    exact if_pos ⟨rfl, hport⟩
  · rw [List.length_append, List.length_singleton] at hlen
    omega

/-- The number of ports that are left bounds the number of rounds. -/
theorem endsWithin_left (bind : SockAddrIn → BindOutcome) (name : SockAddrIn) (left : ℕ)
    (hport : port + left = 65535) (tried : List SockAddrIn) :
    EndsWithin bind name port tried (left + 1) := by
  induction left generalizing port tried with
  | zero =>
      cases houtcome : bind (name.atPort port) with
      | success => exact endsWithin_of_success hport.le houtcome
      | socketError code =>
          exact endsWithin_of_error houtcome fun h => absurd h.2 (Nat.not_lt.mpr hport.ge)
  | succ left ih =>
      have hone : 1 ≤ left + 1 + 1 := Nat.le_add_left 1 (left + 1)
      cases houtcome : bind (name.atPort port) with
      | success => exact (endsWithin_of_success (by omega) houtcome).mono hone
      | socketError code =>
          by_cases hcode : code = wsaeAddrInUse
          · rw [hcode] at houtcome
            exact (ih (by omega) _).retry houtcome (by omega)
          · exact (endsWithin_of_error houtcome fun h => hcode h.1).mono hone

/-- `hatchBind` returns after at most one attempt for each port from its own on: with the first
port that is free behind ports in use only, or with -1 if there is none. -/
theorem hatchBind_finds (bind : SockAddrIn → BindOutcome) (name : SockAddrIn) :
    ∃ r, (∀ fuel, 65536 - (ntohs name.port).toNat ≤ fuel → hatchBind bind fuel name = some r) ∧
      r.tried.length ≤ 65536 - (ntohs name.port).toNat ∧
      (∀ port, FirstFree bind name (ntohs name.port).toNat port →
        r.ret = 0 ∧ (ntohs r.name.port).toNat = port) ∧
      ((∀ port, ¬ FirstFree bind name (ntohs name.port).toNat port) → r.ret = -1) := by
  have hlt := (ntohs name.port).toNat_lt
  obtain ⟨r, hrun, hlen, hfinds⟩ := endsWithin_left bind name (65535 - (ntohs name.port).toNat)
    (Nat.add_sub_of_le (Nat.le_of_lt_succ hlt)) []
  rw [atPort_self] at hrun
  refine ⟨r, fun fuel hfuel => hrun fuel (by omega), by simp at hlen; omega, ?_, ?_⟩
  · intro port hport
    rcases hfinds with ⟨p, hp, hret, hname⟩ | ⟨hnone, -⟩
    · obtain rfl := hp.unique hport
      refine ⟨hret, ?_⟩
      rw [hname, ntohs_atPort name hp.port_le]
    · exact absurd hport (hnone port)
  · intro hnone
    rcases hfinds with ⟨p, hp, -, -⟩ | ⟨-, hret⟩
    · exact absurd hp (hnone p)
    · exact hret

end Hatch.Net
