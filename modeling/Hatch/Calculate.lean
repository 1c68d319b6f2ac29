import Mathlib.Data.List.DropRight
import Mathlib.Order.Basic
import Mathlib.Tactic.SplitIfs
import Hatch.CMachine

/-!
# The calculator

`calculate` of `compute.cpp` writes the postfix form of an expression over the expression itself and
evaluates it. The stack of operators has room for `ops` characters and that of operands for `nums`
numbers, both 200 in the source. Every write of the first pass is kept with the index of the
character that was read last.
-/

namespace Hatch.Calc

open CMachine

def nul : Char := Char.ofNat 0

/-! ### The program -/

/-- The variables of the first pass; the top of the stack is its first element. -/
structure Pass where
  expStr : ℕ → Char
  i : ℕ
  t : ℕ
  opdata : List Char
  writes : List (ℕ × ℕ)

def put (size : ℕ) (c : Char) (s : Pass) : Except Fault Pass := do
  let expStr ← set size s.expStr s.t c
  let t ← index (s.t + 1)
  return { s with expStr := expStr, t := t, writes := s.writes ++ [(s.t, s.i)] }

/-- Operators are written from the top of the stack as long as they meet a condition. -/
def popWhile (size : ℕ) (p : Char → Bool) : List Char → Pass → Except Fault Pass
  | [], s => .ok { s with opdata := [] }
  | c :: ops, s =>
      if p c then do
        let s ← put size c s
        popWhile size p ops s
      else .ok { s with opdata := c :: ops }

def push (ops : ℕ) (c : Char) (s : Pass) : Except Fault Pass :=
  if s.opdata.length < ops then .ok { s with opdata := c :: s.opdata } else .error .outOfBounds

def isMul (c : Char) : Bool := c = '*' || c = '/'

/-- The `switch` of the first loop. -/
def convertChar (size ops : ℕ) (ch : Char) (s : Pass) : Except Fault Pass :=
  if ch = '+' ∨ ch = '-' then do
    let s ← popWhile size (fun _ => true) s.opdata s
    push ops ch s
  else if ch = '*' ∨ ch = '/' then do
    let s ← popWhile size isMul s.opdata s
    push ops ch s
  else put size ch s

def convertLoop (size ops : ℕ) : ℕ → Pass → Except Fault Pass
  | 0, _ => .error .noFuel
  | fuel + 1, s => do
      let ch ← get size s.expStr s.i
      if ch = nul then return s
      else
        let s ← convertChar size ops ch s
        let i ← index (s.i + 1)
        convertLoop size ops fuel { s with i := i }

def convert (size ops : ℕ) (expStr : ℕ → Char) : Except Fault Pass := do
  let s ← convertLoop size ops size ⟨expStr, 0, 0, [], []⟩
  let s ← popWhile size (fun _ => true) s.opdata s
  let expStr ← set size s.expStr s.t nul
  return { s with expStr := expStr, writes := s.writes ++ [(s.t, s.i)] }

/-- A round of the second loop goes on with a stack or returns. -/
inductive Step where
  | go (numeric : List ℤ)
  | done (v : ℤ)

def combine (f : ℤ → ℤ → ℤ) : List ℤ → Except Fault Step
  | y :: x :: numeric => do
      let tmp ← int (f x y)
      return .go (tmp :: numeric)
  | _ => .error .outOfBounds

def divide : List ℤ → Except Fault Step
  | [] => .error .outOfBounds
  | y :: numeric => if y = 0 then .ok (.done (-10000)) else combine Int.tdiv (y :: numeric)

def evalChar (nums : ℕ) (ch : Char) (numeric : List ℤ) : Except Fault Step :=
  if '0' ≤ ch ∧ ch ≤ '9' then
    if numeric.length < nums then .ok (.go (((ch.toNat : ℤ) - ('0').toNat) :: numeric))
    else .error .outOfBounds
  else if ch = '+' then combine (· + ·) numeric
  else if ch = '-' then combine (· - ·) numeric
  else if ch = '*' then combine (· * ·) numeric
  else if ch = '/' then divide numeric
  else .ok (.go numeric)

def top : List ℤ → Except Fault ℤ
  | [] => .error .outOfBounds
  | x :: _ => .ok x

def evalLoop (size nums : ℕ) (expStr : ℕ → Char) : ℕ → ℕ → List ℤ → Except Fault ℤ
  | 0, _, _ => .error .noFuel
  | fuel + 1, i, numeric => do
      let ch ← get size expStr i
      if ch = nul then top numeric
      else
        match ← evalChar nums ch numeric with
        | .done v => return v
        | .go numeric =>
            let i ← index (i + 1)
            evalLoop size nums expStr fuel i numeric

/-- `calculate`, whose argument `len` is not used. -/
def calculate (size ops nums : ℕ) (expStr : ℕ → Char) : Except Fault ℤ := do
  let s ← convert size ops expStr
  evalLoop size nums s.expStr size 0 []

def buffer (text : List Char) (k : ℕ) : Char := (text ++ [nul]).getD k nul

/-! ### The first pass on lists -/

def shunt (r : List Char × List Char) (ch : Char) : List Char × List Char :=
  if ch = '+' ∨ ch = '-' then (r.1 ++ r.2, [ch])
  else if ch = '*' ∨ ch = '/' then (r.1 ++ r.2.takeWhile isMul, ch :: r.2.dropWhile isMul)
  else (r.1 ++ [ch], r.2)

def shuntAll (text : List Char) : List Char :=
  let r := text.foldl shunt ([], [])
  r.1 ++ r.2

variable {size room read i : ℕ} {orig : ℕ → Char} {out ops : List Char} {s : Pass} {ch : Char}
  {run : Except Fault Pass}

/-- The buffer holds what has been written and, from `read` on, the string. -/
structure Written (orig : ℕ → Char) (read : ℕ) (out : List Char) (s : Pass) : Prop where
  t : s.t = out.length
  out : ∀ k (hk : k < out.length), s.expStr k = out[k]
  ahead : ∀ k, read ≤ k → s.expStr k = orig k
  writes : ∀ w ∈ s.writes, w.1 ≤ w.2

/-- A part of a round ends with what it has written and with a stack. -/
def Leaves (orig : ℕ → Char) (i : ℕ) (run : Except Fault Pass) (out ops : List Char) : Prop :=
  ∃ s, run = .ok s ∧ Written orig (i + 1) out s ∧ s.opdata = ops ∧ s.i = i

theorem Leaves.ends (h : Leaves orig i run out ops) : ∃ s, run = .ok s ∧ s.i = i := by
  obtain ⟨s, hrun, -, -, hi⟩ := h
  exact ⟨s, hrun, hi⟩

theorem Written.mono (h : Written orig read out s) {read' : ℕ} (hr : read ≤ read') :
    Written orig read' out s :=
  ⟨h.t, h.out, fun k hk => h.ahead k (Nat.le_trans hr hk), h.writes⟩

/-- One more character is in the buffer, at an index that has been read. -/
theorem Written.update (h : Written orig (s.i + 1) out s) (hi : out.length ≤ s.i) (c : Char)
    (t : ℕ) (ht : t = s.t + 1) :
    Written orig (s.i + 1) (out ++ [c]) { s with
      expStr := Function.update s.expStr s.t c
      t := t
      writes := s.writes ++ [(s.t, s.i)] } := by
  have hst := h.t
  constructor
  · simp [ht, hst]
  · intro k hk
    change Function.update s.expStr s.t c k = (out ++ [c])[k]
    by_cases hkt : k = s.t
    · subst hkt
      simp [hst]
    · have hlt : k < out.length := by
        rw [List.length_append, List.length_singleton] at hk
        omega
      rw [Function.update_of_ne hkt, List.getElem_append_left hlt]
      exact h.out k hlt
  · intro k hk
    change Function.update s.expStr s.t c k = orig k
    rw [Function.update_of_ne (by omega)]
    exact h.ahead k hk
  · intro w hw
    rcases List.mem_append.mp hw with hw | hw
    · exact h.writes w hw
    · obtain rfl := List.mem_singleton.mp hw
      change s.t ≤ s.i
      omega

theorem Written.terminate (h : Written orig (s.i + 1) out s) (hi : out.length ≤ s.i) :
    Written orig (s.i + 1) out { s with
      expStr := Function.update s.expStr s.t nul
      writes := s.writes ++ [(s.t, s.i)] } := by
  have hnext := h.update hi nul (s.t + 1) rfl
  refine ⟨h.t, fun k hk => ?_, hnext.ahead, hnext.writes⟩
  have hout := hnext.out k (by rw [List.length_append]; omega)
  rwa [List.getElem_append_left hk] at hout

theorem Written.put (h : Written orig (s.i + 1) out s) (hi : out.length ≤ s.i) (hsize : s.i < size)
    (hint : out.length + 1 < 2 ^ 31) (c : Char) :
    Leaves orig s.i (put size c s) (out ++ [c]) s.opdata := by
  have ht := h.t
  refine ⟨_, ?_, h.update hi c (s.t + 1) rfl, rfl, rfl⟩
  rw [Calc.put, set_of_lt (by omega), ok_bind, index_of_lt (by omega)]
  rfl

/-- Popping writes no further than what has been read. -/
theorem Written.popWhile (p : Char → Bool) (h : Written orig (s.i + 1) out s)
    (hi : out.length + ops.length ≤ s.i) (hsize : s.i < size) (hint : s.i < 2 ^ 31) :
    Leaves orig s.i (popWhile size p ops s) (out ++ ops.takeWhile p) (ops.dropWhile p) := by
  induction ops generalizing out s with
  | nil =>
      refine ⟨{ s with opdata := [] }, rfl, ?_, rfl, rfl⟩
      rw [List.takeWhile_nil, List.append_nil]
      exact ⟨h.t, h.out, h.ahead, h.writes⟩
  | cons c ops ih =>
      rw [List.length_cons] at hi
      rw [Calc.popWhile]
      cases hc : p c with
      | false =>
          refine ⟨{ s with opdata := c :: ops }, rfl, ?_, ?_, rfl⟩
          · rw [List.takeWhile_cons_of_neg (by simp [hc]), List.append_nil]
            exact ⟨h.t, h.out, h.ahead, h.writes⟩
          · rw [List.dropWhile_cons_of_neg (by simp [hc])]
      | true =>
          obtain ⟨s₁, hput, h₁, -, hi₁⟩ := h.put (by omega) hsize (by omega) c
          rw [← hi₁] at h₁ hsize hint
          have hlen : (out ++ [c]).length + ops.length ≤ s₁.i := by
            rw [List.length_append, List.length_singleton, hi₁]
            omega
          obtain ⟨s₂, hpop, h₂, hops, hi₂⟩ := ih h₁ hlen hsize hint
          rw [hi₁, List.append_assoc] at h₂
          rw [List.takeWhile_cons_of_pos hc, List.dropWhile_cons_of_pos hc]
          refine ⟨s₂, ?_, h₂, hops, hi₂.trans hi₁⟩
          rw [if_pos rfl, hput, ok_bind, hpop]

/-- All operators are taken off the stack. -/
theorem Written.popAll (h : Written orig (s.i + 1) out s)
    (hi : out.length + s.opdata.length = s.i) (hsize : s.i < size) (hint : s.i < 2 ^ 31) :
    Leaves orig s.i (Calc.popWhile size (fun _ => true) s.opdata s) (out ++ s.opdata) [] := by
  have hall : s.opdata.takeWhile (fun _ => true) = s.opdata :=
    List.takeWhile_eq_self_iff.mpr fun _ _ => rfl
  have hnone : s.opdata.dropWhile (fun _ => true) = [] :=
    List.dropWhile_eq_nil_iff.mpr fun _ _ => rfl
  have hrun := h.popWhile (fun _ => true) (Nat.le_of_eq hi) hsize hint
  rwa [hall, hnone] at hrun

theorem Leaves.push (h : Leaves orig i run out ops) (hroom : ops.length < room) (ch : Char) :
    Leaves orig i (run >>= push room ch) out (ch :: ops) := by
  obtain ⟨s, rfl, hs, rfl, hi⟩ := h
  refine ⟨{ s with opdata := ch :: s.opdata }, ?_, ⟨hs.t, hs.out, hs.ahead, hs.writes⟩, rfl, hi⟩
  rw [ok_bind, Calc.push, if_pos hroom]

/-- Below the multiplications on the stack there is one operator at most. -/
def Shallow (ops : List Char) : Prop := (ops.dropWhile isMul).length ≤ 1

/-- Every character is in the output or on the stack. -/
theorem shunt_perm (r : List Char × List Char) (ch : Char) :
    ((shunt r ch).1 ++ (shunt r ch).2).Perm (r.1 ++ r.2 ++ [ch]) := by
  unfold shunt
  split_ifs
  · exact .refl _
  · have hmiddle : (r.2.takeWhile isMul ++ ch :: r.2.dropWhile isMul).Perm (r.2 ++ [ch]) := by
      refine List.perm_middle.trans ?_
      rw [List.takeWhile_append_dropWhile]
      exact (List.perm_append_singleton ch r.2).symm
    rw [List.append_assoc, List.append_assoc]
    exact hmiddle.append_left r.1
  · rw [List.append_assoc, List.append_assoc]
    exact List.perm_append_comm.append_left r.1

theorem length_shunt (out ops : List Char) (ch : Char) :
    (shunt (out, ops) ch).1.length + (shunt (out, ops) ch).2.length =
      out.length + ops.length + 1 := by
  have hlen := (shunt_perm (out, ops) ch).length_eq
  simp only [List.length_append, List.length_singleton] at hlen
  exact hlen

theorem foldl_shunt_perm (text : List Char) (r : List Char × List Char) :
    ((text.foldl shunt r).1 ++ (text.foldl shunt r).2).Perm (r.1 ++ r.2 ++ text) := by
  induction text generalizing r with
  | nil => rw [List.append_nil, List.foldl_nil]
  | cons ch text ih =>
      have hstep := (shunt_perm r ch).append_right text
      rw [List.append_assoc _ [ch], List.singleton_append] at hstep
      exact (ih (shunt r ch)).trans hstep

theorem shuntAll_perm (text : List Char) : (shuntAll text).Perm text :=
  foldl_shunt_perm text ([], [])

theorem shallow_shunt (h : Shallow ops) (out : List Char) (ch : Char) :
    Shallow (shunt (out, ops) ch).2 := by
  unfold shunt
  split_ifs with hadd hmul
  · rcases hadd with rfl | rfl <;> exact Nat.le_refl 1
  · have hch : isMul ch = true := by simpa [isMul] using hmul
    rw [Shallow, List.dropWhile_cons_of_pos hch, List.dropWhile_idempotent]
    exact h
  · exact h

/-- A round does to the buffer and the stack what it does to lists. -/
theorem convertChar_written (h : Written orig (s.i + 1) out s)
    (hi : out.length + s.opdata.length = s.i) (hshallow : Shallow s.opdata) (hroom : 2 ≤ room)
    (hsize : s.i < size) (hint : s.i + 1 < 2 ^ 31) (ch : Char) :
    Leaves orig s.i (convertChar size room ch s) (shunt (out, s.opdata) ch).1
      (shunt (out, s.opdata) ch).2 := by
  unfold convertChar shunt
  split_ifs with hadd hmul
  · exact (h.popAll hi hsize (by omega)).push (Nat.lt_of_lt_of_le Nat.zero_lt_two hroom) ch
  · have hpop := h.popWhile isMul (Nat.le_of_eq hi) hsize (by omega)
    exact hpop.push (Nat.lt_of_le_of_lt hshallow hroom) ch
  · exact h.put (by omega) hsize (by omega) ch

/-- Where the index is the greatest `int`, a round may already fail to write. -/
theorem convertChar_last (h : Written orig (s.i + 1) out s)
    (hi : out.length + s.opdata.length = s.i) (hshallow : Shallow s.opdata) (hroom : 2 ≤ room)
    (hsize : s.i < size) (hint : s.i + 1 = 2 ^ 31) (ch : Char) :
    convertChar size room ch s = .error .overflow ∨
      ∃ s', convertChar size room ch s = .ok s' ∧ s'.i = s.i := by
  unfold convertChar
  split_ifs with hadd hmul
  · have hpop := h.popAll hi hsize (by omega)
    exact .inr (hpop.push (Nat.lt_of_lt_of_le Nat.zero_lt_two hroom) ch).ends
  · have hpop := h.popWhile isMul (Nat.le_of_eq hi) hsize (by omega)
    exact .inr (hpop.push (Nat.lt_of_le_of_lt hshallow hroom) ch).ends
  · have ht := h.t
    rcases Nat.lt_or_ge (out.length + 1) (2 ^ 31) with hlt | hge
    · exact .inr (h.put (by omega) hsize hlt ch).ends
    · left
      rw [put, set_of_lt (by omega), ok_bind, index_of_le (by omega)]
      rfl

/-! ### Whole strings -/

def Holds (expStr : ℕ → Char) (i : ℕ) (text : List Char) : Prop :=
  ∀ k, k ≤ text.length → expStr (i + k) = buffer text k

variable {expStr : ℕ → Char} {text : List Char} {c : Char}

theorem holds_buffer (text : List Char) : Holds (buffer text) 0 text :=
  fun k _ => congrArg (buffer text) (Nat.zero_add k)

theorem Holds.head (h : Holds expStr i (c :: text)) : expStr i = c := h 0 (Nat.zero_le _)

theorem Holds.tail (h : Holds expStr i (c :: text)) : Holds expStr (i + 1) text := by
  intro k hk
  rw [Nat.add_assoc, Nat.add_comm 1]
  exact h (k + 1) (Nat.succ_le_succ hk)

theorem Holds.end (h : Holds expStr i []) : expStr i = nul := h 0 (Nat.zero_le _)

theorem Written.holds (h : Written orig read out s) (hend : s.expStr out.length = nul) :
    Holds s.expStr 0 out := by
  intro k hk
  rw [Nat.zero_add, buffer]
  rcases Nat.lt_or_eq_of_le hk with hlt | rfl
  · rw [h.out k hlt, List.getD_eq_getElem?_getD, List.getElem?_append_left hlt,
      List.getElem?_eq_getElem hlt]
    rfl
  · rw [hend, List.getD_eq_getElem?_getD, List.getElem?_append_right le_rfl, Nat.sub_self]
    rfl

/-- The state in front of the round for the first character of `text`. -/
structure AtChar (orig : ℕ → Char) (size : ℕ) (out text : List Char) (s : Pass) : Prop where
  written : Written orig s.i out s
  length : out.length + s.opdata.length = s.i
  shallow : Shallow s.opdata
  holds : Holds orig s.i text
  nul_notMem : nul ∉ text
  size : s.i + text.length < size

theorem AtChar.stops (h : AtChar orig size out [] s) (fuel : ℕ) :
    convertLoop size room (fuel + 1) s = .ok s := by
  have hend : s.expStr s.i = nul := (h.written.ahead _ le_rfl).trans h.holds.end
  have hsize : s.i < size := h.size
  rw [convertLoop, get_of_lt hsize, ok_bind, if_pos hend]
  rfl

/-- The character of a round is that of the string. -/
theorem AtChar.enters (h : AtChar orig size out (c :: text) s) (fuel : ℕ) :
    convertLoop size room (fuel + 1) s =
      (convertChar size room c s >>= fun s => index (s.i + 1) >>= fun i =>
        convertLoop size room fuel { s with i := i }) := by
  have hc : s.expStr s.i = c := (h.written.ahead _ le_rfl).trans h.holds.head
  have hne : c ≠ nul := fun heq => h.nul_notMem (heq ▸ List.mem_cons_self)
  have hsize := h.size
  rw [convertLoop, get_of_lt (by omega), ok_bind, hc, if_neg hne]

theorem AtChar.step (h : AtChar orig size out (c :: text) s) (hroom : 2 ≤ room)
    (hint : s.i + 1 < 2 ^ 31) (fuel : ℕ) :
    ∃ s', convertLoop size room (fuel + 1) s = convertLoop size room fuel s' ∧
      AtChar orig size (shunt (out, s.opdata) c).1 text s' ∧
      s'.opdata = (shunt (out, s.opdata) c).2 ∧ s'.i = s.i + 1 := by
  have hsize := h.size
  rw [List.length_cons] at hsize
  have hi : s.i < size := by omega
  obtain ⟨s₁, hrun, h₁, hops, hi₁⟩ := convertChar_written (h.written.mono (Nat.le_succ _))
    h.length h.shallow hroom hi hint c
  refine ⟨{ s₁ with i := s.i + 1 }, ?_, ?_, hops, rfl⟩
  · rw [h.enters, hrun, ok_bind, hi₁, index_of_lt hint, ok_bind]
  · exact {
      written := ⟨h₁.t, h₁.out, h₁.ahead, h₁.writes⟩
      length := by
        change _ + s₁.opdata.length = s.i + 1
        rw [hops, length_shunt, h.length]
      shallow := by
        change Shallow s₁.opdata
        rw [hops]
        exact shallow_shunt h.shallow out c
      holds := h.holds.tail
      nul_notMem := fun hm => h.nul_notMem (List.mem_cons_of_mem _ hm)
      size := by
        change s.i + 1 + text.length < size
        omega }

theorem AtChar.step_overflow (h : AtChar orig size out (c :: text) s) (hroom : 2 ≤ room)
    (hint : s.i + 1 = 2 ^ 31) (fuel : ℕ) :
    convertLoop size room (fuel + 1) s = .error .overflow := by
  have hi : s.i < size := Nat.lt_of_le_of_lt (Nat.le_add_right _ _) h.size
  rw [h.enters]
  rcases convertChar_last (h.written.mono (Nat.le_succ _)) h.length h.shallow hroom hi hint c with
    hrun | ⟨s', hrun, hi'⟩
  · rw [hrun]
    rfl
  · rw [hrun, ok_bind, hi', index_of_le (Nat.le_of_eq hint.symm)]
    rfl

/-- The first loop reads the string as it was. -/
theorem AtChar.loop (h : AtChar orig size out text s) (hroom : 2 ≤ room) {fuel : ℕ}
    (hfuel : text.length < fuel) (hint : s.i + text.length < 2 ^ 31) :
    ∃ s', convertLoop size room fuel s = .ok s' ∧
      AtChar orig size (text.foldl shunt (out, s.opdata)).1 [] s' ∧
      s'.opdata = (text.foldl shunt (out, s.opdata)).2 ∧ s'.i = s.i + text.length := by
  induction text generalizing out s fuel with
  | nil =>
      obtain ⟨fuel, rfl⟩ := Nat.exists_eq_succ_of_ne_zero (Nat.ne_zero_of_lt hfuel)
      exact ⟨s, h.stops fuel, h, rfl, rfl⟩
  | cons c text ih =>
      obtain ⟨fuel, rfl⟩ := Nat.exists_eq_succ_of_ne_zero (Nat.ne_zero_of_lt hfuel)
      rw [List.length_cons] at hfuel hint
      obtain ⟨s₁, hstep, h₁, hops, hi₁⟩ := h.step hroom (by omega) fuel
      obtain ⟨s₂, hloop, h₂, hops₂, hi₂⟩ := ih h₁ (Nat.lt_of_succ_lt_succ hfuel) (by omega)
      rw [hops] at h₂ hops₂
      refine ⟨s₂, hstep.trans hloop, h₂, hops₂, ?_⟩
      rw [hi₂, hi₁, List.length_cons]
      omega

theorem AtChar.loop_overflow (h : AtChar orig size out text s) (hroom : 2 ≤ room) {fuel : ℕ}
    (hfuel : text.length < fuel) (hi : s.i < 2 ^ 31) (hint : 2 ^ 31 ≤ s.i + text.length) :
    convertLoop size room fuel s = .error .overflow := by
  induction text generalizing out s fuel with
  | nil => exact absurd hi (Nat.not_lt.mpr hint)
  | cons c text ih =>
      obtain ⟨fuel, rfl⟩ := Nat.exists_eq_succ_of_ne_zero (Nat.ne_zero_of_lt hfuel)
      rw [List.length_cons] at hfuel hint
      rcases Nat.lt_or_ge (s.i + 1) (2 ^ 31) with hlt | hge
      · obtain ⟨s₁, hstep, h₁, -, hi₁⟩ := h.step hroom hlt fuel
        rw [hstep]
        exact ih h₁ (Nat.lt_of_succ_lt_succ hfuel) (by omega) (by omega)
      · exact h.step_overflow hroom (by omega) fuel

theorem atChar_start (hnul : nul ∉ text) :
    AtChar (buffer text) (text.length + 1) [] text ⟨buffer text, 0, 0, [], []⟩ where
  written := ⟨rfl, fun k hk => absurd hk (Nat.not_lt_zero k), fun _ _ => rfl, by simp⟩
  length := rfl
  shallow := Nat.zero_le 1
  holds := holds_buffer text
  nul_notMem := hnul
  size := by
    change 0 + text.length < text.length + 1
    omega

theorem convertLoop_buffer (hnul : nul ∉ text) (hroom : 2 ≤ room)
    (hint : text.length < 2 ^ 31) :
    ∃ s, convertLoop (text.length + 1) room (text.length + 1) ⟨buffer text, 0, 0, [], []⟩ = .ok s ∧
      AtChar (buffer text) (text.length + 1) (text.foldl shunt ([], [])).1 [] s ∧
      s.opdata = (text.foldl shunt ([], [])).2 ∧ s.i = text.length := by
  obtain ⟨s, hloop, h, hops, hi⟩ :=
    (atChar_start hnul).loop hroom (Nat.lt_succ_self _) (by simpa using hint)
  exact ⟨s, hloop, h, hops, hi.trans (Nat.zero_add _)⟩

/-- The first pass leaves the string of `shuntAll`, and overwrites nothing that it has not read. -/
theorem convert_spec (hnul : nul ∉ text) (hroom : 2 ≤ room) (hint : text.length < 2 ^ 31) :
    ∃ s, convert (text.length + 1) room (buffer text) = .ok s ∧
      Holds s.expStr 0 (shuntAll text) ∧ ∀ w ∈ s.writes, w.1 ≤ w.2 := by
  obtain ⟨s₁, hloop, h₁, hops, hi⟩ := convertLoop_buffer hnul hroom hint
  have hlen := h₁.length
  have hsize : s₁.i < text.length + 1 := h₁.size
  have hread := h₁.written.mono (Nat.le_succ s₁.i)
  obtain ⟨s₂, hpop, h₂, -, hi₂⟩ := hread.popAll hlen hsize (by omega)
  rw [← hi₂] at h₂
  have hle : ((text.foldl shunt ([], [])).1 ++ s₁.opdata).length ≤ s₂.i := by
    rw [List.length_append, hi₂]
    exact Nat.le_of_eq hlen
  have ht := h₂.t
  have hend := h₂.terminate hle
  refine ⟨_, ?_, ?_, hend.writes⟩
  · rw [convert, hloop, ok_bind, hpop, ok_bind, set_of_lt (by omega)]
    rfl
  · have hshunt : shuntAll text = (text.foldl shunt ([], [])).1 ++ s₁.opdata := by
      rw [shuntAll, hops]
    rw [hshunt]
    apply hend.holds
    change Function.update s₂.expStr s₂.t nul _ = nul
    rw [ht, Function.update_self]

theorem convert_overflow (hnul : nul ∉ text) (hroom : 2 ≤ room) (hint : 2 ^ 31 ≤ text.length) :
    convert (text.length + 1) room (buffer text) = .error .overflow := by
  have hloop := (atChar_start hnul).loop_overflow hroom (Nat.lt_succ_self _)
    (Nat.two_pow_pos 31) (by simpa using hint)
  rw [convert, hloop]
  rfl

end Hatch.Calc
