import FieldScript.Program.Parse
import FieldScript.Proofs.Program.Consumed

/-!
# Precedence

The reader takes every rendering of an expression whole: an operator that waits is completed exactly
when the next one binds no closer than it. Main statement: an expression is parsed off the front of
a stream just when the tokens taken render it and no binary operator comes next.
-/

namespace FieldScript.ExprReader

/-- The state after tokens that all belong to the expression. -/
def State.takeAll : State → List Token → Option State
  | state, [] => some state
  | state, token :: rest =>
    match state.take token with
    | .more next => next.takeAll rest
    | _ => none

theorem State.takeAll_cons {state next : State} {token : Token} (rest : List Token)
    (h : state.take token = .more next) : state.takeAll (token :: rest) = next.takeAll rest := by
  rw [takeAll, h]

theorem State.takeAll_append {state mid : State} {ts : List Token} (rest : List Token)
    (h : state.takeAll ts = some mid) : state.takeAll (ts ++ rest) = mid.takeAll rest := by
  induction ts generalizing state with
  | nil => rw [← Option.some.inj h, List.nil_append]
  | cons token ts ih =>
    rw [takeAll] at h
    split at h
    · next next taken =>
      rw [List.cons_append, takeAll_cons _ taken]
      exact ih h
    · simp at h

theorem read_append {state mid : State} {ts : List Token} (rest : List Token) (eof : Token)
    (h : state.takeAll ts = some mid) : read state (ts ++ rest) eof = read mid rest eof := by
  induction ts generalizing state with
  | nil => rw [← Option.some.inj h, List.nil_append]
  | cons token ts ih =>
    rw [State.takeAll] at h
    split at h
    · next next taken =>
      rw [List.cons_append, read, taken]
      exact ih h
    · simp at h

/-- The innermost frame is no operator that binds as close as the level. -/
def Below (level : Nat) : List Frame → Prop
  | .binary op _ _ :: _ => op.level < level
  | _ => True

theorem Below.mono {p q : Nat} {frames : List Frame} (h : Below p frames) (hq : p ≤ q) :
    Below q frames := by
  match frames, h with
  | .binary _ _ _ :: _, h => exact Nat.lt_of_lt_of_le h hq
  | .group _ :: _, _ => trivial
  | [], _ => trivial

theorem reduce_of_below {level : Nat} {frames : List Frame} (e : Expr) (h : Below level frames) :
    reduce level e frames = (e, frames) := by
  match frames, h with
  | .binary _ _ _ :: _, h => rw [reduce, if_neg (Nat.not_le.mpr h)]
  | .group _ :: _, _ => rfl
  | [], _ => rfl

/-- Operators of at least a level that complete an operand to a whole expression. -/
inductive Pending (p : Nat) : List Frame → Expr → Expr → Prop where
  | done {e : Expr} : Pending p [] e e
  | binary {frames : List Frame} {op : BinaryOp} {left e whole : Expr} {place : Location}
    (level : p ≤ op.level) (outer : Pending p frames (.binary op left e place) whole) :
    Pending p (.binary op left place :: frames) e whole

namespace Pending

variable {p q level : Nat} {pending : List Frame} {e d whole : Expr}

theorem mono (h : Pending p pending e whole) (hq : q ≤ p) : Pending q pending e whole := by
  induction h with
  | done => exact .done
  | binary level _ ih => exact .binary (Nat.le_trans hq level) ih

theorem append {others : List Frame} (h : Pending p pending e d) (ho : Pending p others d whole) :
    Pending p (pending ++ others) e whole := by
  induction h with
  | done => exact ho
  | binary level _ ih => exact .binary level (ih ho)

theorem reduce {frames : List Frame} (h : Pending level pending e whole)
    (below : Below level frames) : reduce level e (pending ++ frames) = (whole, frames) := by
  induction h with
  | done => exact reduce_of_below _ below
  | binary closer _ ih =>
    rw [List.cons_append, ExprReader.reduce, if_pos closer]
    exact ih

theorem close (h : Pending p pending e whole) (frames : List Frame) :
    close e (pending ++ frames) = close whole frames := by
  induction h with
  | done => rfl
  | binary _ _ ih =>
    rw [List.cons_append, ExprReader.close]
    exact ih

end Pending

theorem take_operand_literal {signs : List Sign} {frames : List Frame} {token : Token} {v : Value}
    (h : token.kind = v.tokenKind) : (State.operand signs frames).take token =
      .more (.operator (wrap signs (.literal v token.place)) frames) := by
  cases v <;> simp [State.take, takeOperand, h, Value.tokenKind]

theorem take_operand_sign {signs : List Sign} {frames : List Frame} {token : Token} {op : UnaryOp}
    (h : token.kind = .symbol op.symbol) : (State.operand signs frames).take token =
      .more (.operand (⟨op, token.place⟩ :: signs) frames) := by
  cases op <;> simp [State.take, takeOperand, h, UnaryOp.symbol]

theorem fieldIndex?_of_kind {token : Token} {index : FieldIndex}
    (h : token.kind = index.tokenKind) :
    fieldIndex? token = some (index.relocate fun _ => token.place) := by
  rcases index with ⟨n | x, place⟩ | ⟨x, place⟩ <;>
    simp [fieldIndex?, h, FieldIndex.tokenKind, TokenKind.ofNumber, FieldIndex.relocate]

/-- A parenthesis closes the innermost group once its operators are complete. -/
theorem take_rightParen {p : Nat} {pending frames : List Frame} {signs : List Sign}
    {e whole : Expr} {token : Token} (h : Pending p pending e whole)
    (kind_eq : token.kind = .symbol .rightParen) :
    (State.operator e (pending ++ .group signs :: frames)).take token =
      .more (.operator (wrap signs whole) frames) := by
  have plain : binaryOp? token = none := by simp [binaryOp?, kind_eq, BinaryOp.ofSymbol?]
  simp only [State.take, takeOperator, plain, h.close, close, kind_eq, if_true]

/-- An operator completes what binds at least as close, and waits with that as its left operand. -/
theorem take_binary {pending frames : List Frame} {e left : Expr} {op : BinaryOp} {token : Token}
    (h : Pending op.level pending e left) (below : Below op.level frames)
    (kind_eq : token.kind = .symbol op.symbol) :
    (State.operator e (pending ++ frames)).take token =
      .more (.operand [] (.binary op left token.place :: frames)) := by
  have found : binaryOp? token = some op := binaryOp?_eq_some_iff.mpr kind_eq
  simp only [State.take, takeOperator, found, h.reduce below]

/-- A rendering is read from where an operand is to come. Signs may wait only for an operand, and
what is left of the expression is operators that bind at least as close as its level. -/
theorem takeAll_of_renders {p : Nat} {kinds : List TokenKind} {e : Expr} (h : Renders p kinds e)
    (signs : List Sign) (frames : List Frame) {ts : List Token}
    (kinds_eq : ts.map Token.kind = kinds) (signed : p = 7 ∨ signs = []) (below : Below p frames) :
    ∃ read operand pending, read.bare = e.bare ∧
      (State.operand signs frames).takeAll ts = some (.operator operand (pending ++ frames)) ∧
      Pending p pending operand (wrap signs read) := by
  induction h generalizing ts signs frames with
  | @group p us e inner ih =>
    obtain ⟨openTs, closeTs, rfl, open_eq, close_eq⟩ := List.map_eq_append_iff.mp kinds_eq
    obtain ⟨leftParen, ts, rfl, left_eq, ts_eq⟩ := List.map_eq_cons_iff.mp open_eq
    obtain ⟨rightParen, rfl, right_eq⟩ := List.map_eq_singleton_iff.mp close_eq
    rcases ih [] (.group signs :: frames) ts_eq (.inr rfl) trivial with
      ⟨read, operand, pending, bare_eq, taken, complete⟩
    refine ⟨read, wrap signs read, [], bare_eq, ?_, .done⟩
    have opened : (State.operand signs frames).take leftParen =
        .more (.operand [] (.group signs :: frames)) := by
      simp [State.take, takeOperand, left_eq]
    rw [List.cons_append, State.takeAll_cons _ opened, State.takeAll_append _ taken,
      State.takeAll_cons _ (take_rightParen complete right_eq)]
    rfl
  | @binary p ls rs op left right place level hl hr ihl ihr =>
    rw [← op.level_eq_precedence] at level ihl ihr
    -- Signs wait for an operand of level 7, which a binary operator is not.
    have unsigned : signs = [] := signed.resolve_left fun h => by
      have := op.level_le_six
      omega
    obtain ⟨leftTs, rightTs, rfl, left_eq, right_eq⟩ := List.map_eq_append_iff.mp kinds_eq
    obtain ⟨token, rightTs, rfl, op_eq, right_eq⟩ := List.map_eq_cons_iff.mp right_eq
    rcases ihl [] frames left_eq (.inr rfl) (below.mono level) with
      ⟨l, d, before, left_bare, left_taken, left_complete⟩
    rw [wrap_nil] at left_complete
    have joined := take_binary left_complete (below.mono level) op_eq
    rcases ihr [] (.binary op l token.place :: frames) right_eq (.inr rfl) (Nat.lt_succ_self _) with
      ⟨r, operand, after, right_bare, right_taken, right_complete⟩
    have right_whole := right_complete.mono (Nat.le_trans level (Nat.le_succ _))
    refine ⟨.binary op l r token.place, operand, after ++ [.binary op l token.place], ?_, ?_, ?_⟩
    · simp only [Expr.bare, Expr.relocate] at left_bare right_bare ⊢
      rw [left_bare, right_bare]
    · rw [unsigned, State.takeAll_append _ left_taken, State.takeAll_cons _ joined, right_taken]
      simp
    · rw [unsigned]
      exact right_whole.append (.binary level .done)
  | @unary p us op inner place level operand_renders ih =>
    obtain ⟨sign, ts, rfl, sign_eq, ts_eq⟩ := List.map_eq_cons_iff.mp kinds_eq
    rcases ih (⟨op, sign.place⟩ :: signs) frames ts_eq (.inl rfl) (below.mono level) with
      ⟨read, operand, pending, bare_eq, taken, complete⟩
    refine ⟨.unary op read sign.place, operand, pending, ?_, ?_, complete.mono level⟩
    · simp only [Expr.bare, Expr.relocate] at bare_eq ⊢
      rw [bare_eq]
    · rw [State.takeAll_cons _ (take_operand_sign sign_eq), taken]
  | @literal p v place =>
    obtain ⟨token, rfl, token_eq⟩ := List.map_eq_singleton_iff.mp kinds_eq
    refine ⟨.literal v token.place, _, [], rfl, ?_, .done⟩
    rw [State.takeAll_cons _ (take_operand_literal token_eq)]
    rfl
  | @var p x place =>
    obtain ⟨token, rfl, token_eq⟩ := List.map_eq_singleton_iff.mp kinds_eq
    refine ⟨.var x token.place, _, [], rfl, ?_, .done⟩
    simp [State.takeAll, State.take, takeOperand, token_eq]
  | @field p index place =>
    obtain ⟨dollar, ts, rfl, dollar_eq, ts_eq⟩ := List.map_eq_cons_iff.mp kinds_eq
    obtain ⟨token, rfl, token_eq⟩ := List.map_eq_singleton_iff.mp ts_eq
    refine ⟨.field (index.relocate fun _ => token.place) dollar.place, _, [], ?_, ?_, .done⟩
    · cases index <;> rfl
    · simp [State.takeAll, State.take, takeOperand, dollar_eq, fieldIndex?_of_kind token_eq]

theorem read_of_renders {ts rest : List Token} (eof : Token) {e : Expr}
    (h : Renders 1 (ts.map Token.kind) e) (ends : EndsExpr rest) (at_end : eof.kind = .eof) :
    ∃ d, read .start (ts ++ rest) eof = (.ok d, rest) ∧ d.bare = e.bare := by
  rcases takeAll_of_renders h [] [] rfl (.inr rfl) trivial with
    ⟨d, operand, pending, bare_eq, taken, complete⟩
  have ended (token : Token) (plain : binaryOp? token = none) :
      (State.operator operand (pending ++ [])).take token = .done d := by
    simp only [State.take, takeOperator, plain, complete.close, close, wrap_nil]
  refine ⟨d, ?_, bare_eq⟩
  rw [State.start, read_append _ _ taken]
  cases rest with
  | nil => rw [read, ended eof (by simp [binaryOp?, at_end])]
  | cons token rest => rw [read, ended token (ends token rfl)]

end FieldScript.ExprReader

namespace FieldScript

/-- Parsing takes exactly the tokens `ts` for an expression when they render it, however the parts
are parenthesised, and what follows cannot go on with an operator. Locations aside, what is parsed
is the expression rendered. -/
theorem parseExpression_iff_renders (ts rest : List Token) (eof : Location) (e : Expr) :
    (∃ d, (Stream.mk (ts ++ rest) eof).parseExpression = (.ok d, ⟨rest, eof⟩) ∧ d.bare = e.bare) ↔
      Renders 1 (ts.map Token.kind) e ∧ ExprReader.EndsExpr rest := by
  constructor
  · rintro ⟨d, parsed, bare_eq⟩
    simp only [Stream.parseExpression, Prod.mk.injEq, Stream.mk.injEq, and_true] at parsed
    have start : ExprReader.Reaches [] .start := .operand [] .bottom
    obtain ⟨us, tokens_eq, renders, ends⟩ := start.read (Prod.ext parsed.1 parsed.2)
    rw [List.append_cancel_right tokens_eq]
    exact ⟨renders.of_bare_eq bare_eq.symm, ends⟩
  · rintro ⟨renders, ends⟩
    rcases ExprReader.read_of_renders ⟨.eof, eof⟩ renders ends rfl with
      ⟨d, read_eq, bare_eq⟩
    exact ⟨d, by simp only [Stream.parseExpression, read_eq], bare_eq⟩

end FieldScript
