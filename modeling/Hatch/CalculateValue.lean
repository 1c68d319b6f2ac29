import Mathlib.Data.Fintype.Basic
import Hatch.Calculate

/-!
# Expressions and their values

An expression is a sequence of digits and operators. It is read as a sum of terms, which are
products of digits; both are computed from the left. The first pass of `calculate` takes the text of
an expression to its postfix form, and the second pass computes the value from it, or returns -10000
where it meets the divisor 0.
-/

namespace Hatch.Calc

open CMachine

/-! ### Expressions -/

inductive AddOp where
  | add
  | sub
  deriving DecidableEq

inductive MulOp where
  | mul
  | div
  deriving DecidableEq

inductive Op where
  | sum (a : AddOp)
  | product (m : MulOp)
  deriving DecidableEq

def AddOp.char : AddOp → Char
  | add => '+'
  | sub => '-'

def MulOp.char : MulOp → Char
  | mul => '*'
  | div => '/'

def AddOp.apply : AddOp → ℤ → ℤ → ℤ
  | add, x, y => x + y
  | sub, x, y => x - y

def MulOp.apply : MulOp → ℤ → ℤ → ℤ
  | mul, x, y => x * y
  | div, x, y => x.tdiv y

def digitChar (d : Fin 10) : Char := Char.ofNat (48 + d)

structure Term where
  first : Fin 10
  factors : List (MulOp × Fin 10)

structure Expr where
  first : Term
  terms : List (AddOp × Term)

def Term.value (T : Term) : ℤ := T.factors.foldl (fun x f => f.1.apply x (f.2 : ℕ)) (T.first : ℕ)

def Expr.value (e : Expr) : ℤ := e.terms.foldl (fun x t => t.1.apply x t.2.value) e.first.value

def Term.text (T : Term) : List Char :=
  digitChar T.first :: T.factors.flatMap fun f => [f.1.char, digitChar f.2]

def Expr.text (e : Expr) : List Char :=
  e.first.text ++ e.terms.flatMap fun t => t.1.char :: t.2.text

/-- A divisor is a digit, since a division takes the next operand only. -/
def Term.HasZero (T : Term) : Prop := (MulOp.div, 0) ∈ T.factors

def Expr.HasZero (e : Expr) : Prop := e.first.HasZero ∨ ∃ t ∈ e.terms, t.2.HasZero

def Op.char : Op → Char
  | sum a => a.char
  | product m => m.char

def textOf (d : Fin 10) (rest : List (Op × Fin 10)) : List Char :=
  digitChar d :: rest.flatMap fun r => [r.1.char, digitChar r.2]

def group : Fin 10 → List (Op × Fin 10) → Expr
  | d, [] => ⟨⟨d, []⟩, []⟩
  | d, (.sum a, d') :: rest => ⟨⟨d, []⟩, (a, (group d' rest).first) :: (group d' rest).terms⟩
  | d, (.product m, d') :: rest =>
      ⟨⟨d, (m, d') :: (group d' rest).first.factors⟩, (group d' rest).terms⟩

/-! ### Computing within the range of an `int` -/

inductive Failure where
  | zeroDivisor
  | outOfRange
  deriving DecidableEq

def inRange (x : ℤ) : Except Failure ℤ :=
  if -2 ^ 31 ≤ x ∧ x < 2 ^ 31 then .ok x else .error .outOfRange

def MulOp.eval (m : MulOp) (x : ℤ) (d : Fin 10) : Except Failure ℤ :=
  if m = .div ∧ d = 0 then .error .zeroDivisor else inRange (m.apply x (d : ℕ))

/-- The value of a term if no intermediate value in front of a divisor 0 is out of range. -/
def Term.eval (T : Term) : Except Failure ℤ :=
  T.factors.foldlM (fun x f => f.1.eval x f.2) (T.first : ℕ)

def Expr.eval (e : Expr) : Except Failure ℤ := do
  let x ← e.first.eval
  e.terms.foldlM (fun x t => t.2.eval >>= fun y => inRange (t.1.apply x y)) x

/-- An expression whose intermediate values stay in the range of an `int`. -/
structure Formula where
  first : Fin 10
  rest : List (Op × Fin 10)
  inRange : (group first rest).eval ≠ .error .outOfRange

def Formula.text (f : Formula) : List Char := textOf f.first f.rest

def Formula.result (f : Formula) : ℤ :=
  if (.product .div, 0) ∈ f.rest then -10000 else (group f.first f.rest).value

/-- No character is overwritten before it is read, two operators and three operands fit the
stacks, and the result is right. -/
def Formula.Correct (f : Formula) : Prop :=
  ∀ ops nums, 2 ≤ ops → 3 ≤ nums →
    (∃ s, convert (f.text.length + 1) ops (buffer f.text) = .ok s ∧ ∀ w ∈ s.writes, w.1 ≤ w.2) ∧
      calculate (f.text.length + 1) ops nums (buffer f.text) = .ok f.result

/-! ### Grouping -/

variable {d : Fin 10} {rest : List (Op × Fin 10)}

theorem group_first (d : Fin 10) (rest : List (Op × Fin 10)) :
    (group d rest).first.first = d := by
  rcases rest with _ | ⟨⟨a | m, d'⟩, rest⟩ <;> rfl

/-- Grouping does not change the text. -/
theorem text_group (d : Fin 10) (rest : List (Op × Fin 10)) :
    (group d rest).text = textOf d rest := by
  induction rest generalizing d with
  | nil => rfl
  | cons r rest ih =>
      obtain ⟨op, d'⟩ := r
      have hd' := group_first d' rest
      have htext : textOf d ((op, d') :: rest) = digitChar d :: op.char :: textOf d' rest := rfl
      rw [htext, ← ih d']
      cases op with
      | sum a => rfl
      | product m =>
          rw [Expr.text, Expr.text, Term.text, Term.text, hd']
          rfl

theorem hasZero_group (d : Fin 10) (rest : List (Op × Fin 10)) :
    (group d rest).HasZero ↔ (.product .div, 0) ∈ rest := by
  induction rest generalizing d with
  | nil => simp [group, Expr.HasZero, Term.HasZero]
  | cons r rest ih =>
      obtain ⟨op, d'⟩ := r
      rw [List.mem_cons, ← ih d']
      cases op with
      | sum a => simp [group, Expr.HasZero, Term.HasZero]
      | product m => simp [group, Expr.HasZero, Term.HasZero, or_assoc, eq_comm]

/-! ### The postfix form -/

def Term.rpn (T : Term) : List Char :=
  digitChar T.first :: T.factors.flatMap fun f => [digitChar f.2, f.1.char]

def Expr.rpn (e : Expr) : List Char :=
  e.first.rpn ++ e.terms.flatMap fun t => t.2.rpn ++ [t.1.char]

variable {out ops m : List Char}

theorem shunt_digit (out ops : List Char) (d : Fin 10) :
    shunt (out, ops) (digitChar d) = (out ++ [digitChar d], ops) := by
  have hadd : ∀ d, ¬ (digitChar d = '+' ∨ digitChar d = '-') := by decide
  have hmul : ∀ d, ¬ (digitChar d = '*' ∨ digitChar d = '/') := by decide
  rw [shunt, if_neg (hadd d), if_neg (hmul d)]

theorem shunt_add (out ops : List Char) (a : AddOp) :
    shunt (out, ops) a.char = (out ++ ops, [a.char]) := by
  cases a <;> rfl

theorem shunt_mul (out ops : List Char) (o : MulOp) :
    shunt (out, ops) o.char =
      (out ++ ops.takeWhile isMul, o.char :: ops.dropWhile isMul) := by
  cases o <;> rfl

/-- Multiplications lie on other operators. -/
theorem shunt_mul_append (out : List Char) (hm : ∀ c ∈ m, isMul c = true)
    (hops : ops.takeWhile isMul = []) (o : MulOp) :
    shunt (out, m ++ ops) o.char = (out ++ m, o.char :: ops) := by
  have hdrop : ops.dropWhile isMul = ops := by
    have happ := List.takeWhile_append_dropWhile (p := isMul) (l := ops)
    rwa [hops, List.nil_append] at happ
  rw [shunt_mul, List.takeWhile_append_of_pos hm, List.dropWhile_append_of_pos hm, hops, hdrop,
    List.append_nil]

theorem isMul_char (o : MulOp) : isMul o.char = true := by cases o <;> rfl

theorem foldl_shunt_factors (fs : List (MulOp × Fin 10)) (out : List Char)
    (hm : ∀ c ∈ m, isMul c = true) (hops : ops.takeWhile isMul = []) :
    ∃ out' m', (∀ c ∈ m', isMul c = true) ∧
      (fs.flatMap fun f => [f.1.char, digitChar f.2]).foldl shunt (out, m ++ ops) =
        (out', m' ++ ops) ∧
      out' ++ m' = out ++ m ++ fs.flatMap fun f => [digitChar f.2, f.1.char] := by
  induction fs generalizing out m with
  | nil => exact ⟨out, m, hm, rfl, (List.append_nil _).symm⟩
  | cons f fs ih =>
      obtain ⟨o, d⟩ := f
      obtain ⟨out', m', hm', hrun, heq⟩ := ih (m := [o.char]) (out ++ m ++ [digitChar d])
        (List.forall_mem_singleton.mpr (isMul_char o))
      refine ⟨out', m', hm', ?_, ?_⟩
      · rw [List.flatMap_cons, List.foldl_append, ← hrun]
        change List.foldl shunt (shunt (shunt (out, m ++ ops) o.char) (digitChar d)) _ = _
        rw [shunt_mul_append out hm hops, shunt_digit]
        rfl
      · rw [heq, List.flatMap_cons]
        simp

theorem foldl_shunt_term (T : Term) (out ops : List Char) (hops : ops.takeWhile isMul = []) :
    ∃ out' m, (∀ c ∈ m, isMul c = true) ∧
      T.text.foldl shunt (out, ops) = (out', m ++ ops) ∧ out' ++ m = out ++ T.rpn := by
  obtain ⟨out', m, hm, hrun, heq⟩ := foldl_shunt_factors (m := []) T.factors
    (out ++ [digitChar T.first]) (List.forall_mem_nil _) hops
  refine ⟨out', m, hm, ?_, ?_⟩
  · rw [Term.text, List.foldl_cons, shunt_digit, ← hrun]
    rfl
  · rw [heq, Term.rpn]
    simp

theorem foldl_shunt_terms (ts : List (AddOp × Term)) (out ops : List Char) :
    let r := (ts.flatMap fun t => t.1.char :: t.2.text).foldl shunt (out, ops)
    r.1 ++ r.2 = out ++ ops ++ ts.flatMap fun t => t.2.rpn ++ [t.1.char] := by
  induction ts generalizing out ops with
  | nil => exact (List.append_nil _).symm
  | cons t ts ih =>
      obtain ⟨a, T⟩ := t
      have hbottom : [a.char].takeWhile isMul = [] := by cases a <;> rfl
      obtain ⟨out', m, -, hrun, heq⟩ := foldl_shunt_term T (out ++ ops) [a.char] hbottom
      have hstep : ((a, T) :: ts).flatMap (fun t => t.1.char :: t.2.text) =
          a.char :: (T.text ++ ts.flatMap fun t => t.1.char :: t.2.text) := rfl
      rw [hstep, List.foldl_cons, shunt_add, List.foldl_append, hrun]
      refine (ih out' (m ++ [a.char])).trans ?_
      rw [← List.append_assoc out' m, heq, List.flatMap_cons]
      simp

/-- The first pass computes the postfix form. -/
theorem shuntAll_text (e : Expr) : shuntAll e.text = e.rpn := by
  obtain ⟨out, m, -, hrun, heq⟩ := foldl_shunt_term e.first [] [] rfl
  rw [shuntAll, Expr.text, List.foldl_append, hrun]
  refine (foldl_shunt_terms e.terms out (m ++ [])).trans ?_
  rw [List.append_nil, heq]
  rfl

/-! ### The second pass -/

def evalList (nums : ℕ) : List Char → List ℤ → Except Fault ℤ
  | [], numeric => top numeric
  | ch :: text, numeric => do
      match ← evalChar nums ch numeric with
      | .done v => return v
      | .go numeric => evalList nums text numeric

theorem evalLoop_eq {size fuel i : ℕ} {expStr : ℕ → Char} {text : List Char} (nums : ℕ)
    (htext : Holds expStr i text) (hnul : nul ∉ text) (hsize : i + text.length < size)
    (hfuel : text.length < fuel) (hint : i + text.length < 2 ^ 31) (numeric : List ℤ) :
    evalLoop size nums expStr fuel i numeric = evalList nums text numeric := by
  induction text generalizing fuel i numeric with
  | nil =>
      obtain ⟨fuel, rfl⟩ := Nat.exists_eq_succ_of_ne_zero (Nat.ne_zero_of_lt hfuel)
      have hi : i < size := hsize
      rw [evalLoop, get_of_lt hi, ok_bind, htext.end, if_pos rfl]
      rfl
  | cons c text ih =>
      obtain ⟨fuel, rfl⟩ := Nat.exists_eq_succ_of_ne_zero (Nat.ne_zero_of_lt hfuel)
      rw [List.length_cons] at hsize hfuel hint
      have hne : c ≠ nul := fun heq => hnul (heq ▸ List.mem_cons_self)
      rw [evalLoop, get_of_lt (by omega), ok_bind, htext.head, if_neg hne, evalList]
      cases evalChar nums c numeric with
      | error e => rfl
      | ok step =>
          cases step with
          | done v => rfl
          | go numeric =>
              rw [ok_bind, ok_bind]
              dsimp only
              rw [index_of_lt (by omega), ok_bind]
              exact ih htext.tail (fun hm => hnul (List.mem_cons_of_mem _ hm)) (by omega)
                (by omega) (by omega) numeric

def andThen (r : Except Failure ℤ) (next : ℤ → Except Fault ℤ) : Except Fault ℤ :=
  match r with
  | .ok v => next v
  | .error .zeroDivisor => .ok (-10000)
  | .error .outOfRange => .error .overflow

theorem andThen_bind (r : Except Failure ℤ) (f : ℤ → Except Failure ℤ)
    (next : ℤ → Except Fault ℤ) :
    andThen (r >>= f) next = andThen r fun x => andThen (f x) next := by
  rcases r with (_ | _) | v <;> rfl

/-- A result is put on the stack if it is in range. -/
theorem combine_bind (f : ℤ → ℤ → ℤ) (x y : ℤ) (numeric : List ℤ)
    (next : Step → Except Fault ℤ) :
    (combine f (y :: x :: numeric) >>= next) =
      andThen (inRange (f x y)) fun v => next (.go (v :: numeric)) := by
  rw [combine, int, inRange]
  split_ifs <;> rfl

variable {nums : ℕ} {numeric : List ℤ}

theorem evalList_digit (d : Fin 10) (text : List Char) (h : numeric.length < nums) :
    evalList nums (digitChar d :: text) numeric =
      evalList nums text (((d : ℕ) : ℤ) :: numeric) := by
  have hdigit : ∀ d, '0' ≤ digitChar d ∧ digitChar d ≤ '9' := by decide
  have hvalue : ∀ d : Fin 10, ((digitChar d).toNat : ℤ) - ('0').toNat = (d : ℕ) := by decide
  rw [evalList, evalChar, if_pos (hdigit d), if_pos h, hvalue]
  rfl

theorem evalList_add (a : AddOp) (text : List Char) (x y : ℤ) :
    evalList nums (a.char :: text) (y :: x :: numeric) =
      andThen (inRange (a.apply x y)) fun v => evalList nums text (v :: numeric) := by
  cases a with
  | add =>
      rw [evalList, AddOp.char, evalChar, if_neg (by decide), if_pos rfl, combine_bind]
      rfl
  | sub =>
      rw [evalList, AddOp.char, evalChar, if_neg (by decide), if_neg (by decide), if_pos rfl,
        combine_bind]
      rfl

theorem evalList_mul (m : MulOp) (text : List Char) (x : ℤ) (d : Fin 10) :
    evalList nums (m.char :: text) (((d : ℕ) : ℤ) :: x :: numeric) =
      andThen (m.eval x d) fun v => evalList nums text (v :: numeric) := by
  cases m with
  | mul =>
      rw [evalList, MulOp.char, evalChar, if_neg (by decide), if_neg (by decide),
        if_neg (by decide), if_pos rfl, combine_bind, MulOp.eval, if_neg (by simp)]
      rfl
  | div =>
      rw [evalList, MulOp.char, evalChar, if_neg (by decide), if_neg (by decide),
        if_neg (by decide), if_neg (by decide), if_pos rfl, divide]
      by_cases hd : d = 0
      · subst hd
        rfl
      · have hne : ((d : ℕ) : ℤ) ≠ 0 := by
          intro heq
          exact hd (by exact_mod_cast heq)
        rw [if_neg hne, combine_bind, MulOp.eval, if_neg (fun h => hd h.2)]
        rfl

/-- Two more numbers than below a term are on the stack while it is computed. -/
theorem evalList_factors (fs : List (MulOp × Fin 10)) (text : List Char) (x : ℤ)
    (h : numeric.length + 2 ≤ nums) :
    evalList nums ((fs.flatMap fun f => [digitChar f.2, f.1.char]) ++ text) (x :: numeric) =
      andThen (fs.foldlM (fun x f => f.1.eval x f.2) x) fun v =>
        evalList nums text (v :: numeric) := by
  induction fs generalizing x with
  | nil => rfl
  | cons f fs ih =>
      have hlist : ((f :: fs).flatMap fun f => [digitChar f.2, f.1.char]) ++ text =
          digitChar f.2 :: f.1.char ::
            ((fs.flatMap fun f => [digitChar f.2, f.1.char]) ++ text) := rfl
      rw [hlist, evalList_digit _ _ (by rw [List.length_cons]; omega), evalList_mul,
        List.foldlM_cons, andThen_bind]
      congr 1
      funext v
      exact ih v

theorem evalList_term (T : Term) (text : List Char) (h : numeric.length + 2 ≤ nums) :
    evalList nums (T.rpn ++ text) numeric =
      andThen T.eval fun v => evalList nums text (v :: numeric) := by
  rw [Term.rpn, List.cons_append, evalList_digit _ _ (by omega)]
  exact evalList_factors T.factors text _ h

theorem evalList_terms (ts : List (AddOp × Term)) (x : ℤ) (h : 3 ≤ nums) :
    evalList nums (ts.flatMap fun t => t.2.rpn ++ [t.1.char]) [x] =
      andThen (ts.foldlM (fun x t => t.2.eval >>= fun y => inRange (t.1.apply x y)) x) .ok := by
  induction ts generalizing x with
  | nil => rfl
  | cons t ts ih =>
      rw [List.flatMap_cons, List.append_assoc, evalList_term t.2 _ h, List.foldlM_cons,
        andThen_bind, andThen_bind]
      congr 1
      funext y
      rw [List.singleton_append, evalList_add]
      congr 1
      funext v
      exact ih v

/-- The second pass computes the value. -/
theorem evalList_rpn (e : Expr) (h : 3 ≤ nums) :
    evalList nums e.rpn [] = andThen e.eval .ok := by
  rw [Expr.rpn, evalList_term e.first _ (by simpa using Nat.le_of_succ_le h), Expr.eval,
    andThen_bind]
  congr 1
  funext x
  exact evalList_terms e.terms x h

/-! ### Values and divisors -/

/-- A computation ends with the value, at a divisor 0, or out of range. -/
def Ends (r : Except Failure ℤ) (v : ℤ) (zero : Prop) : Prop :=
  (r = .ok v ∧ ¬ zero) ∨ (r = .error .zeroDivisor ∧ zero) ∨ r = .error .outOfRange

theorem Ends.bind {r : Except Failure ℤ} {v w : ℤ} {zero zero' : Prop}
    {f : ℤ → Except Failure ℤ} (h : Ends r v zero) (hf : Ends (f v) w zero') :
    Ends (r >>= f) w (zero ∨ zero') := by
  rcases h with ⟨rfl, hno⟩ | ⟨rfl, hyes⟩ | rfl
  · rw [or_iff_right hno]
    exact hf
  · exact .inr (.inl ⟨rfl, .inl hyes⟩)
  · exact .inr (.inr rfl)

theorem ends_inRange (x : ℤ) : Ends (inRange x) x False := by
  unfold inRange
  split_ifs
  · exact .inl ⟨rfl, not_false⟩
  · exact .inr (.inr rfl)

theorem MulOp.ends (m : MulOp) (x : ℤ) (d : Fin 10) :
    Ends (m.eval x d) (m.apply x (d : ℕ)) (m = .div ∧ d = 0) := by
  rw [MulOp.eval]
  by_cases hzero : m = .div ∧ d = 0
  · rw [if_pos hzero]
    exact .inr (.inl ⟨rfl, hzero⟩)
  · rw [if_neg hzero, iff_false_intro hzero]
    exact ends_inRange _

theorem ends_factors (fs : List (MulOp × Fin 10)) (x : ℤ) :
    Ends (fs.foldlM (fun x f => f.1.eval x f.2) x)
      (fs.foldl (fun x f => f.1.apply x (f.2 : ℕ)) x) ((MulOp.div, 0) ∈ fs) := by
  induction fs generalizing x with
  | nil => exact .inl ⟨rfl, List.not_mem_nil⟩
  | cons f fs ih =>
      obtain ⟨m, d⟩ := f
      have hhead : (MulOp.div, 0) = (m, d) ↔ m = .div ∧ d = 0 := by
        rw [eq_comm, Prod.mk.injEq]
      rw [List.foldlM_cons, List.foldl_cons, List.mem_cons, hhead]
      exact (m.ends x d).bind (ih _)

theorem Term.ends (T : Term) : Ends T.eval T.value T.HasZero := ends_factors T.factors _

theorem ends_terms (ts : List (AddOp × Term)) (x : ℤ) :
    Ends (ts.foldlM (fun x t => t.2.eval >>= fun y => inRange (t.1.apply x y)) x)
      (ts.foldl (fun x t => t.1.apply x t.2.value) x) (∃ t ∈ ts, t.2.HasZero) := by
  induction ts generalizing x with
  | nil => exact .inl ⟨rfl, by simp⟩
  | cons t ts ih =>
      obtain ⟨a, T⟩ := t
      have hterm : Ends (T.eval >>= fun y => inRange (a.apply x y)) (a.apply x T.value)
          T.HasZero := by
        have hbind := T.ends.bind (f := fun y => inRange (a.apply x y)) (ends_inRange _)
        rwa [or_false] at hbind
      rw [List.foldlM_cons, List.foldl_cons, List.exists_mem_cons_iff]
      exact hterm.bind (ih _)

theorem Expr.ends (e : Expr) : Ends e.eval e.value e.HasZero :=
  e.first.ends.bind (ends_terms e.terms e.first.value)

/-! ### The result -/

theorem Formula.nul_notMem (f : Formula) : nul ∉ f.text := by
  have hdigit : ∀ d, nul ≠ digitChar d := by decide
  have hop : ∀ op : Op, nul ≠ op.char := by
    rintro ((_ | _) | (_ | _)) <;> decide
  intro h
  rcases List.mem_cons.mp h with h | h
  · exact hdigit f.first h
  · obtain ⟨r, -, hr⟩ := List.mem_flatMap.mp h
    rcases List.mem_pair.mp hr with hr | hr
    · exact hop r.1 hr
    · exact hdigit r.2 hr

theorem Formula.andThen_eval (f : Formula) :
    andThen (group f.first f.rest).eval .ok = .ok f.result := by
  have hzero := hasZero_group f.first f.rest
  unfold Formula.result
  rcases (group f.first f.rest).ends with ⟨heval, hno⟩ | ⟨heval, hyes⟩ | heval
  · rw [heval, if_neg (fun h => hno (hzero.mpr h))]
    rfl
  · rw [heval, if_pos (hzero.mp hyes)]
    rfl
  · exact absurd heval f.inRange

theorem Formula.correct_of_lt (f : Formula) (hint : f.text.length < 2 ^ 31) : f.Correct := by
  intro ops nums hops hnums
  obtain ⟨s, hconvert, hholds, hwrites⟩ := convert_spec f.nul_notMem hops hint
  refine ⟨⟨s, hconvert, hwrites⟩, ?_⟩
  have hperm := shuntAll_perm f.text
  have hlen := hperm.length_eq
  have heval : evalLoop (f.text.length + 1) nums s.expStr (f.text.length + 1) 0 [] =
      evalList nums (shuntAll f.text) [] :=
    evalLoop_eq nums hholds (fun h => f.nul_notMem (hperm.mem_iff.mp h)) (by omega) (by omega)
      (by omega) []
  rw [calculate, hconvert, ok_bind, heval]
  have hrpn : shuntAll f.text = (group f.first f.rest).rpn := by
    rw [Formula.text, ← text_group, shuntAll_text]
  rw [hrpn, evalList_rpn _ hnums, f.andThen_eval]

/-- The calculator is right on an expression just if its text is shorter than `2 ^ 31`. -/
theorem calculate_correct_iff (f : Formula) : f.Correct ↔ f.text.length < 2 ^ 31 := by
  constructor
  · intro h
    by_contra hlen
    obtain ⟨⟨s, hrun, -⟩, -⟩ := h 2 3 le_rfl le_rfl
    rw [convert_overflow f.nul_notMem le_rfl (Nat.not_lt.mp hlen)] at hrun
    cases hrun
  · exact f.correct_of_lt

/-- The expression of the commented-out test, `2+9*3-5+8/2-1`. -/
example : calculate 14 200 200 (buffer (textOf 2 [(.sum .add, 9), (.product .mul, 3),
    (.sum .sub, 5), (.sum .add, 8), (.product .div, 2), (.sum .sub, 1)])) = .ok 27 := by rfl

theorem length_textOf (d : Fin 10) (rest : List (Op × Fin 10)) :
    (textOf d rest).length = 2 * rest.length + 1 := by
  induction rest generalizing d with
  | nil => rfl
  | cons r rest ih =>
      have hcons : textOf d (r :: rest) = digitChar d :: r.1.char :: textOf r.2 rest := rfl
      rw [hcons, List.length_cons, List.length_cons, ih, List.length_cons]
      omega

theorem group_zeros (n : ℕ) :
    group 0 (List.replicate n (.sum .add, 0)) =
      ⟨⟨0, []⟩, List.replicate n (.add, ⟨0, []⟩)⟩ := by
  induction n with
  | zero => rfl
  | succ n ih => rw [List.replicate_succ, group, ih, List.replicate_succ]

theorem eval_zeros (n : ℕ) : (group 0 (List.replicate n (.sum .add, 0))).eval = .ok 0 := by
  have hstep : (Term.eval ⟨0, []⟩ >>= fun y => inRange (AddOp.add.apply 0 y)) = .ok 0 := by
    have hterm : Term.eval ⟨0, []⟩ = .ok 0 := rfl
    have hzero : inRange 0 = .ok 0 := if_pos (by decide)
    rw [hterm]
    exact hzero
  rw [group_zeros, Expr.eval]
  change List.foldlM _ 0 (List.replicate n _) = _
  induction n with
  | zero => rfl
  | succ n ih =>
      rw [List.replicate_succ, List.foldlM_cons, hstep]
      exact ih

def zeros (n : ℕ) : Formula where
  first := 0
  rest := List.replicate n (.sum .add, 0)
  inRange := by
    rw [eval_zeros]
    intro h
    cases h

theorem length_zeros (n : ℕ) : (zeros n).text.length = 2 * n + 1 := by
  rw [Formula.text, length_textOf, zeros, List.length_replicate]

theorem zeros_overflow {n : ℕ} (hn : 2 ^ 30 ≤ n) :
    calculate ((zeros n).text.length + 1) 200 200 (buffer (zeros n).text) = .error .overflow ∧
      ¬ (zeros n).Correct := by
  have hlen := length_zeros n
  have hrun {ops : ℕ} (hops : 2 ≤ ops) :
      convert ((zeros n).text.length + 1) ops (buffer (zeros n).text) = .error .overflow :=
    convert_overflow (zeros n).nul_notMem hops (by omega)
  refine ⟨?_, fun h => ?_⟩
  · rw [calculate, hrun (by decide)]
    rfl
  · obtain ⟨⟨s, hok, -⟩, -⟩ := h 2 3 le_rfl le_rfl
    rw [hrun le_rfl] at hok
    cases hok

/-- The sum of `2 ^ 30 + 1` zeros is not computed. -/
theorem calculate_overflows :
    calculate ((zeros (2 ^ 30)).text.length + 1) 200 200 (buffer (zeros (2 ^ 30)).text) =
        .error .overflow ∧
      ¬ (zeros (2 ^ 30)).Correct :=
  zeros_overflow le_rfl

end Hatch.Calc
