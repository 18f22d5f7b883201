import FieldScript.Eval.Expr
import FieldScript.Proofs.Value.Exactness

/-!
# Evaluation is strict

The parts of an expression are evaluated in postorder: both operands of an operator before the
operator, the left one first. Main statement: evaluation succeeds exactly where every part that does
arithmetic has the numbers it needs, and otherwise its fault is that of the first part that has not.
-/

namespace FieldScript

namespace Expr

/-- The parts of an expression, the operands of each in front of it and left before right. -/
def postorder : Expr → List Expr
  | binary op left right place =>
    left.postorder ++ right.postorder ++ [binary op left right place]
  | unary op operand place => operand.postorder ++ [unary op operand place]
  | e => [e]

variable (store : Store) (record : Record)

/-- An operator of arithmetic needs operands with numbers, and a divisor other than zero; no other
part needs anything. -/
def HasNumbers : Expr → Prop
  | binary (.arith op) left right _ =>
    ∃ l r a b, left.eval store record = .ok l ∧ right.eval store record = .ok r ∧
      l.toNumber = some a ∧ r.toNumber = some b ∧ ¬(op.Divides ∧ b.IsZero)
  | unary .negate operand _ =>
    ∃ v a, operand.eval store record = .ok v ∧ v.toNumber = some a
  | _ => True

inductive FailsWith : Expr → OperatorFault → Prop where
  | arith {op : Arith} {left right : Expr} {place : Location} {l r : Value} {fault : OperatorFault}
      (left_value : left.eval store record = .ok l) (right_value : right.eval store record = .ok r)
      (faults : op.Faults l r fault) : FailsWith (binary (.arith op) left right place) fault
  | negate {operand : Expr} {place : Location} {v : Value}
      (value : operand.eval store record = .ok v) (no_number : v.toNumber = none) :
      FailsWith (unary .negate operand place) (.nonNumeric "-" v.display)

/-- The first of some parts that has not the numbers it needs, by its fault. -/
def FirstFailure (parts : List Expr) (fault : OperatorFault) : Prop :=
  ∃ before part after, parts = before ++ part :: after ∧
    (∀ earlier ∈ before, earlier.HasNumbers store record) ∧ part.FailsWith store record fault

variable {store record}

theorem eval_of_failsWith {part : Expr} {fault : OperatorFault}
    (fails : part.FailsWith store record fault) : part.eval store record = .error fault := by
  cases fails with
  | arith left_value right_value faults =>
    rw [eval, left_value, right_value]
    exact Value.arithmetic_of_faults faults
  | negate value no_number =>
    rw [eval, value]
    exact Value.negate_of_no_number no_number

theorem not_hasNumbers_of_failsWith {part : Expr} {fault : OperatorFault}
    (fails : part.FailsWith store record fault) : ¬part.HasNumbers store record := by
  intro sound
  cases fails with
  | arith left_value right_value faults =>
    obtain ⟨l, r, a, b, left_eq, right_eq, left, right, defined⟩ := sound
    cases left_value.symm.trans left_eq
    cases right_value.symm.trans right_eq
    have ok := Value.arithmetic_of_numbers left right defined
    rw [Value.arithmetic_of_faults faults] at ok
    cases ok
  | negate value no_number =>
    obtain ⟨v, a, value_eq, number⟩ := sound
    cases value.symm.trans value_eq
    simp [no_number] at number

namespace FirstFailure

variable {parts : List Expr} {fault : OperatorFault}

theorem single {part : Expr} (fails : part.FailsWith store record fault) :
    FirstFailure store record [part] fault :=
  ⟨[], part, [], rfl, by simp, fails⟩

theorem append (failure : FirstFailure store record parts fault) (more : List Expr) :
    FirstFailure store record (parts ++ more) fault := by
  obtain ⟨before, part, after, rfl, earlier, fails⟩ := failure
  exact ⟨before, part, after ++ more, by simp, earlier, fails⟩

theorem behind (failure : FirstFailure store record parts fault) {front : List Expr}
    (front_sound : ∀ part ∈ front, part.HasNumbers store record) :
    FirstFailure store record (front ++ parts) fault := by
  obtain ⟨before, part, after, rfl, earlier, fails⟩ := failure
  refine ⟨front ++ before, part, after, by simp, ?_, fails⟩
  intro other member
  exact (List.mem_append.mp member).elim (front_sound other) (earlier other)

theorem not_sound (failure : FirstFailure store record parts fault) :
    ¬∀ part ∈ parts, part.HasNumbers store record := by
  obtain ⟨before, part, after, rfl, -, fails⟩ := failure
  exact fun sound => not_hasNumbers_of_failsWith fails (sound part (by simp))

theorem of_cons {part : Expr} (failure : FirstFailure store record (part :: parts) fault) :
    part.FailsWith store record fault ∨
      part.HasNumbers store record ∧ FirstFailure store record parts fault := by
  obtain ⟨before, failing, after, parts_eq, earlier, fails⟩ := failure
  cases before with
  | nil =>
    obtain ⟨rfl, -⟩ := List.cons.inj parts_eq
    exact .inl fails
  | cons first before =>
    obtain ⟨rfl, rest_eq⟩ := List.cons.inj parts_eq
    obtain ⟨first_sound, earlier⟩ := List.forall_mem_cons.mp earlier
    exact .inr ⟨first_sound, before, failing, after, rest_eq, earlier, fails⟩

theorem unique {other : OperatorFault} (failure : FirstFailure store record parts fault)
    (also : FirstFailure store record parts other) : fault = other := by
  induction parts with
  | nil => exact absurd (by simp) failure.not_sound
  | cons part parts ih =>
    rcases failure.of_cons with fails | ⟨sound, failure⟩ <;>
      rcases also.of_cons with fails' | ⟨sound', also⟩
    · exact Except.error.inj ((eval_of_failsWith fails).symm.trans (eval_of_failsWith fails'))
    · exact absurd sound' (not_hasNumbers_of_failsWith fails)
    · exact absurd sound (not_hasNumbers_of_failsWith fails')
    · exact ih failure also

end FirstFailure

variable (store record) in
/-- What a result says of some parts: that all of them have the numbers they need, or which fault
the first failure among them has. -/
def Accounts (parts : List Expr) : Except OperatorFault Value → Prop
  | .ok _ => ∀ part ∈ parts, part.HasNumbers store record
  | .error fault => FirstFailure store record parts fault

theorem Accounts.behind {parts front : List Expr} {result : Except OperatorFault Value}
    (account : Accounts store record parts result)
    (front_sound : ∀ part ∈ front, part.HasNumbers store record) :
    Accounts store record (front ++ parts) result := by
  cases result with
  | ok v => exact fun part member =>
      (List.mem_append.mp member).elim (front_sound part) (account part)
  | error fault => exact FirstFailure.behind account front_sound

theorem accounts_binary {op : BinaryOp} {left right : Expr} (place : Location) {l r : Value}
    (left_value : left.eval store record = .ok l) (right_value : right.eval store record = .ok r) :
    Accounts store record [binary op left right place] (op.apply l r) := by
  cases op with
  | arith op =>
    rcases Classical.em (∃ fault, op.Faults l r fault) with ⟨fault, faults⟩ | none_faults
    · rw [BinaryOp.apply, Value.arithmetic_of_faults faults]
      exact .single (.arith left_value right_value faults)
    · obtain ⟨a, b, left_number, right_number, defined⟩ := Value.exists_numbers none_faults
      rw [BinaryOp.apply, Value.arithmetic_of_numbers left_number right_number defined]
      rintro part member
      cases List.mem_singleton.mp member
      exact ⟨l, r, a, b, left_value, right_value, left_number, right_number, defined⟩
  | relation | and | or => simp [BinaryOp.apply, Accounts, HasNumbers]

theorem accounts_unary {op : UnaryOp} {operand : Expr} (place : Location) {v : Value}
    (value : operand.eval store record = .ok v) :
    Accounts store record [unary op operand place] (op.apply v) := by
  cases op with
  | negate =>
    rw [UnaryOp.apply]
    cases number : v.toNumber with
    | none =>
      rw [Value.negate_of_no_number number]
      exact .single (.negate value number)
    | some a =>
      cases negated : v.negate with
      | error fault => simp [(Value.negate_eq_error_iff.mp negated).1] at number
      | ok w =>
        rintro part member
        cases List.mem_singleton.mp member
        exact ⟨v, a, value, number⟩
  | not => simp [UnaryOp.apply, Accounts, HasNumbers]

/-- The result of an expression accounts for all its parts. -/
theorem accounts_eval (store : Store) (record : Record) (e : Expr) :
    Accounts store record e.postorder (e.eval store record) := by
  induction e with
  | literal | var | field => simp [postorder, eval, Accounts, HasNumbers]
  | binary op left right place left_account right_account =>
    rw [eval, postorder]
    cases left_value : left.eval store record with
    | error fault =>
      rw [left_value] at left_account
      exact (FirstFailure.append left_account _).append _
    | ok l =>
      rw [left_value] at left_account
      cases right_value : right.eval store record with
      | error fault =>
        rw [right_value] at right_account
        exact (FirstFailure.behind right_account left_account).append _
      | ok r =>
        rw [right_value] at right_account
        exact (accounts_binary place left_value right_value).behind
          (right_account.behind left_account)
  | unary op operand place account =>
    rw [eval, postorder]
    cases value : operand.eval store record with
    | error fault =>
      rw [value] at account
      exact FirstFailure.append account _
    | ok v =>
      rw [value] at account
      exact (accounts_unary place value).behind account

theorem eval_eq_ok_iff {e : Expr} : (∃ v, e.eval store record = .ok v) ↔
    ∀ part ∈ e.postorder, part.HasNumbers store record := by
  have account := accounts_eval store record e
  cases result : e.eval store record with
  | ok v =>
    rw [result] at account
    exact ⟨fun _ => account, fun _ => ⟨v, rfl⟩⟩
  | error fault =>
    rw [result] at account
    simp [FirstFailure.not_sound account]

theorem eval_eq_error_iff {e : Expr} {fault : OperatorFault} :
    e.eval store record = .error fault ↔ FirstFailure store record e.postorder fault := by
  have account := accounts_eval store record e
  cases result : e.eval store record with
  | ok v =>
    rw [result] at account
    exact ⟨nofun, fun failure => absurd account failure.not_sound⟩
  | error first =>
    rw [result] at account
    rw [Except.error.injEq]
    exact ⟨fun same => same ▸ account, FirstFailure.unique account⟩

theorem eval_binary_of_ok {op : BinaryOp} {left right : Expr} {place : Location} {v : Value}
    (h : (binary op left right place).eval store record = .ok v) :
    ∃ l r, left.eval store record = .ok l ∧ right.eval store record = .ok r ∧
      op.apply l r = .ok v := by
  rw [eval] at h
  cases left_value : left.eval store record with
  | error fault => rw [left_value] at h; cases h
  | ok l =>
    cases right_value : right.eval store record with
    | error fault => rw [left_value, right_value] at h; cases h
    | ok r =>
      rw [left_value, right_value] at h
      exact ⟨l, r, rfl, rfl, h⟩

/-- Evaluation succeeds exactly where every operator of arithmetic in the expression, on whichever
side of `&&` and `||` it stands, has operands with numbers and a divisor other than zero. Otherwise
its fault is that of the first one in postorder that has not. On success `&&` and `||` give one of
the values of their operands back. -/
theorem eval_strict (store : Store) (record : Record) (e : Expr) :
    ((∃ v, e.eval store record = .ok v) ↔
      ∀ part ∈ e.postorder, part.HasNumbers store record) ∧
    (∀ fault, e.eval store record = .error fault ↔
      ∃ before part after, e.postorder = before ++ part :: after ∧
        (∀ earlier ∈ before, earlier.HasNumbers store record) ∧
        part.FailsWith store record fault) ∧
    ∀ left right place v, e.eval store record = .ok v →
      (e = binary .and left right place → ∃ l r, left.eval store record = .ok l ∧
        right.eval store record = .ok r ∧ v = if l.isTruthy then r else l) ∧
      (e = binary .or left right place → ∃ l r, left.eval store record = .ok l ∧
        right.eval store record = .ok r ∧ v = if l.isTruthy then l else r) := by
  refine ⟨eval_eq_ok_iff, fun fault => eval_eq_error_iff, ?_⟩
  intro left right place v ok
  constructor
  · rintro rfl
    obtain ⟨l, r, left_value, right_value, apply_eq⟩ := eval_binary_of_ok ok
    exact ⟨l, r, left_value, right_value, (Except.ok.inj apply_eq).symm⟩
  · rintro rfl
    obtain ⟨l, r, left_value, right_value, apply_eq⟩ := eval_binary_of_ok ok
    exact ⟨l, r, left_value, right_value, (Except.ok.inj apply_eq).symm⟩

/-- The expression `1 || -"x" % 0`: the right side of `||` is evaluated, and its minus fails before
its remainder can. -/
theorem eval_strict_behind_or :
    (binary .or (literal (.int 1) .start)
      (binary (.arith .modulo) (unary .negate (literal (.text "x") .start) .start)
        (literal (.int 0) .start) .start) .start).eval .start .start =
      .error (.nonNumeric "-" "x") := by
  apply ((eval_strict .start .start _).2.1 _).mpr
  refine ⟨[literal (.int 1) .start, literal (.text "x") .start], _, _, rfl, ?_, ?_⟩
  · simp [HasNumbers]
  · have value : (literal (.text "x") .start).eval .start .start = .ok (.text "x") := rfl
    exact .negate value (by decide +kernel)

end Expr

end FieldScript
