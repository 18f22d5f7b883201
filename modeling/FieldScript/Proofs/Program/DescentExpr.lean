import FieldScript.Proofs.Program.DescentRules

/-!
# Expressions by descent

The function of a level stops at the first token that is no operator of that level or a closer one,
and the reader then does the same on that token whether it has completed the operators of the level
or still waits with them. So the parser of expressions follows the reader of expressions. Each pass
of a loop and each call inside of a call is one token further on, so fuel for the tokens left is
enough.
-/

namespace FieldScript

open Reader (State Purpose)
open ExprReader (Sign Frame Below binaryOp? wrap)

namespace Descent

def Level.rank : Level → Nat
  | or => 1
  | and => 2
  | equality => 3
  | comparison => 4
  | additive => 5
  | multiplicative => 6

theorem Level.mem_operators_iff {level : Level} {s : Symbol} {op : BinaryOp} :
    (s, op) ∈ level.operators ↔ s = op.symbol ∧ op.level = level.rank := by
  rcases op with op | relation | _ | _ <;> (try cases op) <;> (try cases relation) <;>
    cases level <;> simp [operators, BinaryOp.symbol, BinaryOp.level, rank]

theorem Level.operator?_eq_some_iff {level : Level} {token : Token} {op : BinaryOp} :
    level.operator? token = some op ↔ binaryOp? token = some op ∧ op.level = level.rank := by
  have sound {op : BinaryOp} (found : level.operator? token = some op) :
      binaryOp? token = some op ∧ op.level = level.rank := by
    obtain ⟨⟨s, op⟩, entry, rfl⟩ := Option.map_eq_some_iff.mp found
    obtain ⟨rfl, level_eq⟩ := mem_operators_iff.mp (List.mem_of_find?_eq_some entry)
    have kind_eq := List.find?_some entry
    exact ⟨ExprReader.binaryOp?_eq_some_iff.mpr (of_decide_eq_true kind_eq), level_eq⟩
  constructor
  · exact sound
  · rintro ⟨is_op, level_eq⟩
    have member : (op.symbol, op) ∈ level.operators := mem_operators_iff.mpr ⟨rfl, level_eq⟩
    cases found : level.operator? token with
    | none =>
      have none_found := List.find?_eq_none.mp (Option.map_eq_none_iff.mp found) _ member
      simp [ExprReader.binaryOp?_eq_some_iff.mp is_op] at none_found
    | some other => rw [← is_op, (sound found).1]

/-- A token that is no operator of this level or a closer one. -/
def EndsLevel (p : Nat) (token : Token) : Prop := ∀ op, binaryOp? token = some op → op.level < p

variable {script : Script} {c : Cursor} {signs : List Sign} {frames : List Frame}
  {purpose : Purpose}

theorem endsLevel_seven (token : Token) : EndsLevel 7 token := by
  intro op _
  exact Nat.lt_succ_of_le op.level_le_six

theorem binaryOp?_of_endsLevel_one {token : Token} (h : EndsLevel 1 token) :
    binaryOp? token = none := by
  cases found : binaryOp? token with
  | none => rfl
  | some op => exact absurd (h op found) (Nat.not_lt.mpr op.one_le_level)

/-- An operator that waits is completed by a token that ends the level above it. -/
theorem take_operator_of_endsLevel {op : BinaryOp} {left right : Expr} {place : Location}
    {token : Token} (ends : EndsLevel (op.level + 1) token) :
    (ExprReader.State.operator right (.binary op left place :: frames)).take token =
      (ExprReader.State.operator (.binary op left right place) frames).take token := by
  simp only [ExprReader.State.take, ExprReader.takeOperator]
  cases found : binaryOp? token with
  | none => rfl
  | some other =>
    have le : other.level ≤ op.level := Nat.le_of_lt_succ (ends other found)
    simp only [ExprReader.reduce, if_pos le]

theorem take_group_of_rightParen {e : Expr} {token : Token} (plain : binaryOp? token = none)
    (closes : token.kind = .symbol .rightParen) :
    (ExprReader.State.operator e (.group signs :: frames)).take token =
      .more (.operator (wrap signs e) frames) := by
  simp only [ExprReader.State.take, ExprReader.takeOperator, plain, ExprReader.close, if_pos closes]

theorem take_group_of_ne {e : Expr} {token : Token} (plain : binaryOp? token = none)
    (other : token.kind ≠ .symbol .rightParen) :
    (ExprReader.State.operator e (.group signs :: frames)).take token =
      .wrong (.symbol .rightParen) := by
  simp only [ExprReader.State.take, ExprReader.takeOperator, plain, ExprReader.close, if_neg other]

theorem closeGroup_follows {k : Nat} {e : Expr}
    (plain : binaryOp? (script.token c.position) = none) (lt : k < c.position) :
    Follows script (expect .rightParen >>= fun _ => pure e) c
      (.inExpr (.operator e (.group signs :: frames)) purpose)
      (fun e => .inExpr (.operator (wrap signs e) frames) purpose)
      fun _ d => k < d.position := by
  apply Follows.expect
  · intro closes
    refine ⟨_, Reader.take_inExpr purpose (take_group_of_rightParen plain closes), ?_⟩
    exact .pure rfl (Nat.lt_succ_of_lt lt)
  · intro open_still
    exact ⟨rfl, Reader.take_inExpr_wrong purpose (take_group_of_ne plain open_still)⟩

theorem parseFieldIndex_follows {place : Location} :
    Follows script parseFieldIndex c (.inExpr (.index place signs frames) purpose)
      (fun i => .inExpr (.operator (wrap signs (.field i place)) frames) purpose)
      fun _ d => c.position < d.position := by
  rw [parseFieldIndex]
  apply Follows.look
  cases found : ExprReader.fieldIndex? (script.token c.position) with
  | some index =>
    apply Follows.advance (Reader.take_inExpr purpose _)
    · exact .pure rfl (Nat.lt_succ_self _)
    · simp only [ExprReader.State.take, found]
  | none =>
    apply Follows.fail rfl (Reader.take_inExpr_wrong purpose _)
    simp only [ExprReader.State.take, found]

theorem takeOperand_of_operand {token : Token} {e : Expr} (found : operand? token = some e) :
    ExprReader.takeOperand signs frames token = .ok (.operator (wrap signs e) frames) := by
  obtain ⟨kind, place⟩ := token
  cases kind with
  | symbol s => cases found
  | eof => cases found
  | _ =>
    rw [← Option.some.inj found]
    rfl

theorem takeOperand_of_no_operand {token : Token} (no_operand : operand? token = none)
    (no_bang : token.kind ≠ .symbol .bang) (no_minus : token.kind ≠ .symbol .minus)
    (no_dollar : token.kind ≠ .symbol .dollar) (no_paren : token.kind ≠ .symbol .leftParen) :
    ExprReader.takeOperand signs frames token = .error .other := by
  obtain ⟨kind, place⟩ := token
  cases kind with
  | symbol s =>
    cases s with
    | bang => exact absurd rfl no_bang
    | minus => exact absurd rfl no_minus
    | dollar => exact absurd rfl no_dollar
    | leftParen => exact absurd rfl no_paren
    | _ => rfl
  | eof => rfl
  | _ => cases no_operand

/-- A parser of an operand under signs. -/
def FollowsOperand (script : Script) (p : Parser Expr) (c : Cursor) : Prop :=
  ∀ signs frames purpose, Follows script p c (.inExpr (.operand signs frames) purpose)
    (fun e => .inExpr (.operator (wrap signs e) frames) purpose)
    fun _ d => c.position < d.position

/-- A parser of an expression up to a token that ends its level. -/
def FollowsLevel (script : Script) (p : Parser Expr) (level : Nat) (c : Cursor) : Prop :=
  ∀ frames purpose, Below level frames → Follows script p c (.inExpr (.operand [] frames) purpose)
    (fun e => .inExpr (.operator e frames) purpose)
    fun _ d => c.position < d.position ∧ EndsLevel level (script.token d.position)

theorem parseOperators_follows {level : Level} {operand : Parser Expr} {fuel : Nat} {left : Expr}
    {c : Cursor} (enough : script.last < c.position + fuel)
    (next : ∀ d, c.position ≤ d.position → FollowsLevel script operand (level.rank + 1) d)
    (below : Below level.rank frames)
    (ends : EndsLevel (level.rank + 1) (script.token c.position)) :
    Follows script (parseOperators level operand fuel left) c
      (.inExpr (.operator left frames) purpose) (fun e => .inExpr (.operator e frames) purpose)
      fun _ d => EndsLevel level.rank (script.token d.position) := by
  induction fuel generalizing left c with
  | zero => exact .of_past enough
  | succ fuel ih =>
    rw [parseOperators]
    apply Follows.look
    cases found : level.operator? (script.token c.position) with
    | none =>
      apply Follows.pure rfl
      intro op is_op
      apply Nat.lt_of_le_of_ne (Nat.le_of_lt_succ (ends op is_op))
      intro level_eq
      rw [Level.operator?_eq_some_iff.mpr ⟨is_op, level_eq⟩] at found
      cases found
    | some op =>
      obtain ⟨is_op, level_eq⟩ := Level.operator?_eq_some_iff.mp found
      have taken : (ExprReader.State.operator left frames).take (script.token c.position) =
          .more (.operand [] (.binary op left (script.token c.position).place :: frames)) := by
        simp only [ExprReader.State.take, ExprReader.takeOperator, is_op]
        rw [ExprReader.reduce_of_below left (level_eq ▸ below)]
      apply Follows.advance (Reader.take_inExpr purpose taken)
      have waits : Below (level.rank + 1)
          (.binary op left (script.token c.position).place :: frames) :=
        Nat.lt_succ_of_le (Nat.le_of_eq level_eq)
      apply (next _ (Nat.le_succ _) _ purpose waits).bind
      rintro right d goes ⟨-, ends'⟩
      have forward : c.position + 1 ≤ d.position := goes.forward
      apply Follows.of_take (State.inExpr
        (.operator (.binary op left right (script.token c.position).place) frames) purpose) rfl rfl
      · simp only [State.take, take_operator_of_endsLevel (level_eq ▸ ends')]
      · exact ih (by omega) (fun e le => next e (by omega)) ends'

theorem parseLevel_follows {operand : Parser Expr} {fuel : Nat} (level : Level)
    (enough : script.last < c.position + fuel)
    (next : ∀ d, c.position ≤ d.position → FollowsLevel script operand (level.rank + 1) d) :
    ∀ d, c.position ≤ d.position →
      FollowsLevel script (parseLevel fuel level operand) level.rank d := by
  intro d le frames purpose below
  rw [parseLevel]
  apply (next d le _ purpose (below.mono (Nat.le_succ _))).bind
  rintro left e goes ⟨lt, ends⟩
  have forward := goes.forward
  have later : Follows script (parseOperators level operand fuel left) e
      (.inExpr (.operator left frames) purpose) _ _ :=
    parseOperators_follows (by omega) (fun e' le' => next e' (by omega)) below ends
  apply later.mono
  intro whole e' goes' ends'
  exact ⟨Nat.lt_of_lt_of_le lt goes'.forward, ends'⟩

theorem parseLevels_follows {operand : Parser Expr} {fuel : Nat}
    (enough : script.last < c.position + fuel)
    (signed : ∀ d, c.position ≤ d.position → FollowsOperand script operand d) :
    FollowsLevel script (parseLevels fuel operand) 1 c := by
  have closest : ∀ d, c.position ≤ d.position → FollowsLevel script operand 7 d := by
    intro d le frames purpose _
    apply (signed d le [] frames purpose).mono
    intro e d' _ lt
    exact ⟨lt, endsLevel_seven _⟩
  have multiplicative := parseLevel_follows .multiplicative enough closest
  have additive := parseLevel_follows .additive enough multiplicative
  have comparison := parseLevel_follows .comparison enough additive
  have equality := parseLevel_follows .equality enough comparison
  have and := parseLevel_follows .and enough equality
  exact parseLevel_follows .or enough and c (Nat.le_refl _)

theorem parsePrimary_follows {inner : Parser Expr}
    (no_bang : (script.token c.position).kind ≠ .symbol .bang)
    (no_minus : (script.token c.position).kind ≠ .symbol .minus)
    (grouped : FollowsLevel script inner 1 (c.moveTo (c.position + 1))) :
    FollowsOperand script (parsePrimary inner) c := by
  intro signs frames purpose
  rw [parsePrimary]
  apply Follows.look
  cases found : operand? (script.token c.position) with
  | some e =>
    apply Follows.advance (Reader.take_inExpr purpose _)
    · exact .pure rfl (Nat.lt_succ_self _)
    · simp only [ExprReader.State.take, takeOperand_of_operand found]
  | none =>
    apply Follows.accept
    · intro kind_eq
      have taken : (ExprReader.State.operand signs frames).take (script.token c.position) =
          .more (.index (script.token c.position).place signs frames) := by
        simp only [ExprReader.State.take, ExprReader.takeOperand, kind_eq]
      refine ⟨_, Reader.take_inExpr purpose taken, ?_⟩
      apply parseFieldIndex_follows.bind
      intro index d goes lt
      exact .pure rfl (Nat.lt_trans (Nat.lt_succ_self _) lt)
    · intro no_dollar
      rw [if_neg Bool.false_ne_true]
      apply Follows.accept
      · intro kind_eq
        have taken : (ExprReader.State.operand signs frames).take (script.token c.position) =
            .more (.operand [] (.group signs :: frames)) := by
          simp only [ExprReader.State.take, ExprReader.takeOperand, kind_eq]
        refine ⟨_, Reader.take_inExpr purpose taken, ?_⟩
        apply (grouped (.group signs :: frames) purpose trivial).bind
        rintro e d goes ⟨lt, ends⟩
        exact closeGroup_follows (binaryOp?_of_endsLevel_one ends)
          (Nat.lt_trans (Nat.lt_succ_self _) lt)
      · intro no_paren
        rw [if_neg Bool.false_ne_true]
        apply Follows.fail rfl (Reader.take_inExpr_wrong purpose _)
        simp only [ExprReader.State.take,
          takeOperand_of_no_operand found no_bang no_minus no_dollar no_paren]

theorem parseNegation_follows {operand inner : Parser Expr}
    (no_bang : (script.token c.position).kind ≠ .symbol .bang)
    (signed : FollowsOperand script operand (c.moveTo (c.position + 1)))
    (grouped : FollowsLevel script inner 1 (c.moveTo (c.position + 1))) :
    FollowsOperand script (parseNegation operand inner) c := by
  intro signs frames purpose
  rw [parseNegation]
  apply Follows.look
  apply Follows.accept
  · intro kind_eq
    have taken : (ExprReader.State.operand signs frames).take (script.token c.position) =
        .more (.operand (⟨.negate, (script.token c.position).place⟩ :: signs) frames) :=
      ExprReader.take_operand_sign kind_eq
    refine ⟨_, Reader.take_inExpr purpose taken, ?_⟩
    apply (signed _ frames purpose).bind
    intro e d goes lt
    exact .pure rfl (Nat.lt_trans (Nat.lt_succ_self _) lt)
  · intro no_minus
    exact parsePrimary_follows no_bang no_minus grouped signs frames purpose

theorem parseNot_follows {fuel : Nat} {c : Cursor} (enough : script.last < c.position + fuel) :
    FollowsOperand script (parseNot fuel) c := by
  intro signs frames purpose
  induction fuel generalizing signs frames purpose c with
  | zero => exact .of_past enough
  | succ fuel ih =>
    have signed (d : Cursor) (lt : c.position < d.position) :
        FollowsOperand script (parseNot fuel) d :=
      fun _ _ _ => ih (by omega) _ _ _
    rw [parseNot]
    apply Follows.look
    apply Follows.accept
    · intro kind_eq
      have taken : (ExprReader.State.operand signs frames).take (script.token c.position) =
          .more (.operand (⟨.not, (script.token c.position).place⟩ :: signs) frames) :=
        ExprReader.take_operand_sign kind_eq
      refine ⟨_, Reader.take_inExpr purpose taken, ?_⟩
      apply (signed _ (Nat.lt_succ_self _) _ frames purpose).bind
      intro e d goes lt
      exact .pure rfl (Nat.lt_trans (Nat.lt_succ_self _) lt)
    · intro no_bang
      have further : script.last < c.position + 1 + fuel := by omega
      exact parseNegation_follows no_bang (signed _ (Nat.lt_succ_self _))
        (parseLevels_follows further fun d le => signed d le) signs frames purpose

/-- The parser of expressions follows the reader of expressions, and takes a token at least. -/
theorem parseExpr_follows {fuel : Nat} (enough : script.last < c.position + fuel)
    (purpose : Purpose) :
    Follows script (parseExpr fuel) c (.inExpr .start purpose)
      (fun e => .between (purpose.served e)) fun _ d => c.position < d.position := by
  have whole : FollowsLevel script (parseLevels fuel (parseNot fuel)) 1 c :=
    parseLevels_follows enough fun d le => parseNot_follows (by omega)
  have stopped : Follows script (parseExpr fuel) c (.inExpr .start purpose)
      (fun e => .between (purpose.served e))
      fun _ d => c.position < d.position ∧ EndsLevel 1 (script.token d.position) := by
    apply (whole [] purpose trivial).behind
    · exact fun _ => rfl
    · exact fun e => Reader.program?_served e purpose
    · rintro e d ⟨-, ends⟩
      apply Reader.take_inExpr_done
      simp only [ExprReader.State.take, ExprReader.takeOperator, binaryOp?_of_endsLevel_one ends,
        ExprReader.close]
  exact stopped.mono fun e d _ holds => holds.1

end Descent

end FieldScript
