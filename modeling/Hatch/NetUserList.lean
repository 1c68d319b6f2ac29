import Hatch.NetProcess

/-!
# The user list

`CHatchUserInfo` and `CHatchUserList`. An iterator is an index into the list, and
`end()` is its length. Every list operation enters and leaves the list's critical
section where the source does.
-/

namespace Hatch.Net

open ByteLayout FaultProgram

/-- `strncpy_s` refuses a name that does not fit with its terminator. -/
def hatchSetUserName (u : UserInfo) (n : Bytes) : Handler UserInfo := do
  Prog.require (n.length < usernameMaxLength) .invalidParameter
  return { u with name := n }

def hatchEnter : Handler Unit :=
  Prog.modify (fun s => { s with userLock := s.userLock.enter })

def hatchLeave : Handler Unit :=
  Prog.modify (fun s => { s with userLock := s.userLock.leave })

def names (l : List UserInfo) : List Bytes := l.map UserInfo.name

def userIndex (n : Bytes) (l : List UserInfo) : ℕ := l.findIdx (fun u => u.name = n)

def compareListed (p : PMsgSt) : Handler Bytes := do
  let s ← Prog.get
  compareUserName p (names s.userList)

/-- Without a name the iterator is moved one past `begin()`: the client's own entry. -/
def hatchLocateUser (name : Option Bytes) : Handler ℕ := do
  hatchEnter
  let s ← Prog.get
  match name with
  | none =>
      Prog.require (s.userList ≠ []) .badIterator
      hatchLeave
      return 1
  | some n =>
      hatchLeave
      return userIndex n s.userList

def hatchPushUser (u : UserInfo) : Handler ℤ := do
  let ite ← hatchLocateUser (some u.name)
  hatchEnter
  let s ← Prog.get
  if ite ≠ s.userList.length then
    hatchLeave
    return -1
  else
    Prog.modify (fun s => { s with userList := s.userList ++ [u] })
    hatchLeave
    return 0

def hatchPopUser (n : Bytes) : Handler (Option UserInfo) := do
  let ite ← hatchLocateUser (some n)
  hatchEnter
  let s ← Prog.get
  if ite ≠ s.userList.length then
    Prog.modify (fun s => { s with userList := s.userList.eraseIdx ite })
    hatchLeave
    return s.userList[ite]?
  else
    hatchLeave
    return none

/-- The branch that finds the user leaves the critical section, and so does the
common exit after it. -/
def hatchIsUserInList (n : Bytes) : Handler ℤ := do
  let ite ← hatchLocateUser (some n)
  hatchEnter
  let s ← Prog.get
  if ite ≠ s.userList.length then
    hatchLeave
    hatchLeave
    return 1
  else
    hatchLeave
    return 0

def userAt (ite : ℕ) : Handler UserInfo := do
  let s ← Prog.get
  match s.userList[ite]? with
  | some u => return u
  | none => Prog.fault .badIterator

def hatchSetStatus (ite : ℕ) (status : UserStatus) : Handler Unit := do
  let u ← userAt ite
  Prog.modify (fun s => { s with userList := s.userList.set ite { u with status := some status } })

def hatchSetNameAt (ite : ℕ) (n : Bytes) : Handler Unit := do
  let u ← userAt ite
  let v ← hatchSetUserName u n
  Prog.modify (fun s => { s with userList := s.userList.set ite v })

/-- The effect of entering and leaving once. -/
def CriticalSection.cycle (c : CriticalSection) : CriticalSection := ⟨c.depth, min c.low c.depth⟩

theorem CriticalSection.enter_leave (c : CriticalSection) : c.enter.leave = c.cycle := by
  simp [enter, leave, cycle]

@[simp] theorem CriticalSection.cycle_cycle (c : CriticalSection) : c.cycle.cycle = c.cycle := by
  simp [cycle]

theorem userIndex_lt_iff {n : Bytes} {l : List UserInfo} :
    userIndex n l < l.length ↔ n ∈ names l := by
  simp [userIndex, names, List.findIdx_lt_length]

theorem userIndex_ne_length_iff {n : Bytes} {l : List UserInfo} :
    userIndex n l ≠ l.length ↔ n ∈ names l := by
  have hle : userIndex n l ≤ l.length := List.findIdx_le_length
  rw [← userIndex_lt_iff]
  omega

/-- The list after `hatchPopUser`: the first entry with the name is erased. -/
def eraseUser (n : Bytes) (l : List UserInfo) : List UserInfo := l.eraseIdx (userIndex n l)

theorem eraseUser_of_notMem {n : Bytes} {l : List UserInfo} (h : n ∉ names l) :
    eraseUser n l = l := by
  apply List.eraseIdx_of_length_le
  rw [← userIndex_lt_iff] at h
  omega

section Rules

open Prog

variable {E : Prop} {s : Process}

theorem hatchLocateUser_some_run (n : Bytes) : hatchLocateUser (some n) s =
    .ok (userIndex n s.userList, { s with userLock := s.userLock.cycle }) := by
  simp only [hatchLocateUser, hatchEnter, hatchLeave, bind_apply, modify_apply, get_apply,
    pure_apply, CriticalSection.enter_leave]

theorem hatchLocateUser_none_run : hatchLocateUser none s =
    if s.userList ≠ [] then .ok (1, { s with userLock := s.userLock.cycle })
    else .error .badIterator := by
  by_cases h : s.userList ≠ []
  · simp [hatchLocateUser, hatchEnter, hatchLeave, bind_apply, require, h,
      CriticalSection.enter_leave]
  · rw [not_not] at h
    simp [hatchLocateUser, hatchEnter, bind_apply, require, h]

theorem hatchPushUser_run (u : UserInfo) : hatchPushUser u s =
    .ok (if u.name ∈ names s.userList then -1 else 0,
      { s with
        userList := if u.name ∈ names s.userList then s.userList else s.userList ++ [u]
        userLock := s.userLock.cycle }) := by
  by_cases h : u.name ∈ names s.userList
  · have hi := userIndex_ne_length_iff.mpr h
    simp [hatchPushUser, bind_apply, hatchLocateUser_some_run, hatchEnter, hatchLeave, hi, h,
      CriticalSection.enter_leave]
  · have hi : userIndex u.name s.userList = s.userList.length := by
      by_contra hc
      exact h (userIndex_ne_length_iff.mp hc)
    simp [hatchPushUser, bind_apply, hatchLocateUser_some_run, hatchEnter, hatchLeave, hi, h,
      CriticalSection.enter_leave]

theorem hatchPopUser_run (n : Bytes) : hatchPopUser n s =
    .ok (s.userList[userIndex n s.userList]?,
      { s with userList := eraseUser n s.userList, userLock := s.userLock.cycle }) := by
  by_cases h : n ∈ names s.userList
  · have hi := userIndex_ne_length_iff.mpr h
    simp [hatchPopUser, bind_apply, hatchLocateUser_some_run, hatchEnter, hatchLeave, hi,
      CriticalSection.enter_leave, eraseUser]
  · have hi : userIndex n s.userList = s.userList.length := by
      by_contra hc
      exact h (userIndex_ne_length_iff.mp hc)
    simp [hatchPopUser, bind_apply, hatchLocateUser_some_run, hatchEnter, hatchLeave, hi,
      CriticalSection.enter_leave, eraseUser_of_notMem h]

theorem hatchIsUserInList_run (n : Bytes) : hatchIsUserInList n s =
    .ok (if n ∈ names s.userList then 1 else 0,
      { s with userLock := if n ∈ names s.userList then s.userLock.cycle.leave
        else s.userLock.cycle }) := by
  by_cases h : n ∈ names s.userList
  · have hi := userIndex_ne_length_iff.mpr h
    simp [hatchIsUserInList, bind_apply, hatchLocateUser_some_run, hatchEnter, hatchLeave, hi, h,
      CriticalSection.enter_leave]
  · have hi : userIndex n s.userList = s.userList.length := by
      by_contra hc
      exact h (userIndex_ne_length_iff.mp hc)
    simp [hatchIsUserInList, bind_apply, hatchLocateUser_some_run, hatchEnter, hatchLeave, hi, h,
      CriticalSection.enter_leave]

@[simp] theorem wp_compareListed (Q : Bytes → Process → Prop) :
    wp (compareListed .received) E Q s ↔ if Comparable (names s.userList) s.msg
      then Q (msgUserName s.msg) s.touched else E := by
  rw [compareListed, wp_bind, wp_get, wp_compareUserName]

@[simp] theorem wp_hatchLocateUser_some (n : Bytes) (Q : ℕ → Process → Prop) :
    wp (hatchLocateUser (some n)) E Q s ↔
      Q (userIndex n s.userList) { s with userLock := s.userLock.cycle } :=
  wp_of_run (hatchLocateUser_some_run n) Q

@[simp] theorem wp_hatchLocateUser_none (Q : ℕ → Process → Prop) :
    wp (hatchLocateUser none) E Q s ↔
      if s.userList ≠ [] then Q 1 { s with userLock := s.userLock.cycle } else E :=
  wp_of_run_ite hatchLocateUser_none_run Q

@[simp] theorem wp_hatchSetUserName (u : UserInfo) (n : Bytes) (Q : UserInfo → Process → Prop) :
    wp (hatchSetUserName u n) E Q s ↔
      if n.length < usernameMaxLength then Q { u with name := n } s else E := by
  simp [hatchSetUserName]

/-- Dereferencing an iterator: `E` when it does not point at an element. -/
theorem wp_userAt (ite : ℕ) (Q : UserInfo → Process → Prop) :
    wp (userAt ite) E Q s ↔ match s.userList[ite]? with
      | some u => Q u s
      | none => E := by
  rw [userAt, wp_bind, wp_get]
  cases s.userList[ite]? <;> simp

theorem wp_hatchSetStatus (ite : ℕ) (status : UserStatus) (Q : Unit → Process → Prop) :
    wp (hatchSetStatus ite status) E Q s ↔ match s.userList[ite]? with
      | some u => Q () { s with userList := s.userList.set ite { u with status := some status } }
      | none => E := by
  rw [hatchSetStatus, wp_bind, wp_userAt]
  cases s.userList[ite]? <;> simp

@[simp] theorem wp_hatchPopUser (n : Bytes) (Q : Option UserInfo → Process → Prop) :
    wp (hatchPopUser n) E Q s ↔ Q s.userList[userIndex n s.userList]?
      { s with userList := eraseUser n s.userList, userLock := s.userLock.cycle } :=
  wp_of_run (hatchPopUser_run n) Q

/-- The two outcomes of `hatchPushUser`, by whether the name is taken. -/
@[simp] theorem wp_hatchPushUser (u : UserInfo) (Q : ℤ → Process → Prop) :
    wp (hatchPushUser u) E Q s ↔
      if u.name ∈ names s.userList then Q (-1) { s with userLock := s.userLock.cycle }
      else Q 0 { s with userList := s.userList ++ [u], userLock := s.userLock.cycle } := by
  rw [wp_of_run (hatchPushUser_run u)]
  split <;> rfl

@[simp] theorem wp_hatchIsUserInList (n : Bytes) (Q : ℤ → Process → Prop) :
    wp (hatchIsUserInList n) E Q s ↔
      if n ∈ names s.userList then Q 1 { s with userLock := s.userLock.cycle.leave }
      else Q 0 { s with userLock := s.userLock.cycle } := by
  rw [wp_of_run (hatchIsUserInList_run n)]
  split <;> rfl

end Rules

end Hatch.Net
