import FieldScript.Program.ExprReader
import FieldScript.Proofs.Program.Grammar

/-!
# What has been read of an expression

The tokens taken so far spell the waiting frames and then the operand in hand, every node placed at
its token. Each further token keeps this, so an expression that is read is spelled by the tokens
taken for it.
-/

namespace FieldScript.ExprReader

/-- The tokens of signs, of which the nearest to the operand comes last in the script. -/
def signTokens (signs : List Sign) : List Token :=
  signs.reverse.map fun sign => ⟨.symbol sign.op.symbol, sign.place⟩

theorem signTokens_cons (sign : Sign) (signs : List Sign) :
    signTokens (sign :: signs) = signTokens signs ++ [⟨.symbol sign.op.symbol, sign.place⟩] := by
  simp [signTokens]

/-- Tokens that leave these frames waiting for an operand of at least this level. -/
inductive Opens : Nat → List Token → List Frame → Prop where
  | bottom : Opens 1 [] []
  | binary {p : Nat} {us ls : List Token} {frames : List Frame} {op : BinaryOp} {left : Expr}
    {place : Location} (outer : Opens p us frames) (level : p ≤ op.level)
    (hl : Spells op.level ls left) :
    Opens (op.level + 1) (us ++ ls ++ [⟨.symbol op.symbol, place⟩])
      (.binary op left place :: frames)
  | group {p : Nat} {us : List Token} {frames : List Frame} {place : Location}
    (signs : List Sign) (outer : Opens p us frames) :
    Opens 1 (us ++ signTokens signs ++ [⟨.symbol .leftParen, place⟩]) (.group signs :: frames)

/-- Tokens that take the reader from the start to a state. -/
inductive Reaches : List Token → State → Prop where
  | operand {p : Nat} {us : List Token} {frames : List Frame} (signs : List Sign)
    (outer : Opens p us frames) : Reaches (us ++ signTokens signs) (.operand signs frames)
  | index {p : Nat} {us : List Token} {frames : List Frame} (place : Location)
    (signs : List Sign) (outer : Opens p us frames) :
    Reaches (us ++ signTokens signs ++ [⟨.symbol .dollar, place⟩]) (.index place signs frames)
  | operator {p : Nat} {us es : List Token} {frames : List Frame} {e : Expr}
    (outer : Opens p us frames) (he : Spells 7 es e) : Reaches (us ++ es) (.operator e frames)

theorem Reaches.start : Reaches [] .start := .operand [] .bottom

theorem Opens.level_le {p : Nat} {us : List Token} {frames : List Frame}
    (h : Opens p us frames) : p ≤ 7 := by
  cases h with
  | bottom => decide
  | @binary _ _ _ _ op =>
    have := op.level_le_six
    omega
  | group => decide

@[simp] theorem wrap_nil (e : Expr) : wrap [] e = e := rfl

theorem spells_wrap {es : List Token} {e : Expr} (signs : List Sign) (he : Spells 7 es e) :
    Spells 7 (signTokens signs ++ es) (wrap signs e) := by
  induction signs generalizing es e with
  | nil => exact he
  | cons sign signs ih =>
    have signed : Spells 7 (⟨.symbol sign.op.symbol, sign.place⟩ :: es)
        (.unary sign.op e sign.place) := .unary Nat.le.refl he
    have h := ih signed
    rw [signTokens_cons, List.append_assoc]
    exact h

/-- Completing operators down to a level leaves frames that wait for that level at most. -/
theorem reduce_spells {level p : Nat} {us es : List Token} {frames : List Frame} {e : Expr}
    (positive : 1 ≤ level) (outer : Opens p us frames) (he : Spells (max p level) es e) :
    ∃ q us' es', us' ++ es' = us ++ es ∧ q ≤ level ∧ Opens q us' (reduce level e frames).2 ∧
      Spells level es' (reduce level e frames).1 := by
  induction outer generalizing es e with
  | bottom => exact ⟨1, [], es, rfl, positive, .bottom, he.mono (Nat.le_max_right ..)⟩
  | @binary p us ls frames op left place outer hp hl ih =>
    by_cases closer : level ≤ op.level
    · have hr : Spells (op.level + 1) es e := he.mono (Nat.le_max_left ..)
      have whole : Spells (max p level) (ls ++ ⟨.symbol op.symbol, place⟩ :: es)
          (.binary op left e place) := .binary_of_level (Nat.max_le.mpr ⟨hp, closer⟩) hl hr
      obtain ⟨q, us', es', tokens_eq, hq, outer', he'⟩ := ih whole
      rw [reduce, if_pos closer]
      exact ⟨q, us', es', by simp [tokens_eq], hq, outer', he'⟩
    · rw [reduce, if_neg closer]
      exact ⟨op.level + 1, _, es, rfl, by omega, .binary outer hp hl,
        he.mono (Nat.le_max_right ..)⟩
  | group signs outer =>
    exact ⟨1, _, es, rfl, positive, .group signs outer, he.mono (Nat.le_max_right ..)⟩

/-- Completing all operators gives the whole expression, or what stands in the innermost open
parenthesis. -/
theorem close_spells {p : Nat} {us es : List Token} {frames : List Frame} {e : Expr}
    (outer : Opens p us frames) (he : Spells p es e) :
    match close e frames with
    | (whole, none) => Spells 1 (us ++ es) whole
    | (inner, some (signs, rest)) => ∃ q us' es' place, Opens q us' rest ∧ Spells 1 es' inner ∧
        us' ++ signTokens signs ++ ⟨.symbol .leftParen, place⟩ :: es' = us ++ es := by
  induction outer generalizing es e with
  | bottom => exact he
  | @binary p us ls frames op left place outer hp hl ih =>
    have whole : Spells p (ls ++ ⟨.symbol op.symbol, place⟩ :: es) (.binary op left e place) :=
      .binary_of_level hp hl he
    simpa [close] using ih whole
  | @group p us frames place signs outer => exact ⟨p, us, es, place, outer, he, by simp⟩

theorem takeOperand_cases {signs : List Sign} {frames : List Frame} {token : Token} {next : State}
    (h : takeOperand signs frames token = .ok next) :
    (∃ e, Spells 7 [token] e ∧ next = .operator (wrap signs e) frames) ∨
    (∃ op : UnaryOp, token.kind = .symbol op.symbol ∧
      next = .operand (⟨op, token.place⟩ :: signs) frames) ∨
    (token.kind = .symbol .dollar ∧ next = .index token.place signs frames) ∨
    (token.kind = .symbol .leftParen ∧ next = .operand [] (.group signs :: frames)) := by
  obtain ⟨kind, place⟩ := token
  cases kind with
  | integer n => exact .inl ⟨_, .literal (v := .int n), (Except.ok.inj h).symm⟩
  | float x => exact .inl ⟨_, .literal (v := .float x), (Except.ok.inj h).symm⟩
  | text s => exact .inl ⟨_, .literal (v := .text s), (Except.ok.inj h).symm⟩
  | name x => exact .inl ⟨_, .var, (Except.ok.inj h).symm⟩
  | symbol s =>
    cases s with
    | bang => exact .inr (.inl ⟨.not, rfl, (Except.ok.inj h).symm⟩)
    | minus => exact .inr (.inl ⟨.negate, rfl, (Except.ok.inj h).symm⟩)
    | dollar => exact .inr (.inr (.inl ⟨rfl, (Except.ok.inj h).symm⟩))
    | leftParen => exact .inr (.inr (.inr ⟨rfl, (Except.ok.inj h).symm⟩))
    | _ => cases h
  | eof => cases h

theorem fieldIndex?_eq_some {token : Token} {index : FieldIndex}
    (h : fieldIndex? token = some index) : token = index.token := by
  obtain ⟨kind, place⟩ := token
  rw [fieldIndex?] at h
  split at h <;> simp only [Option.some.injEq, reduceCtorEq] at h
  all_goals
    next kind_eq =>
      subst h
      subst kind_eq
      rfl

theorem binaryOp?_eq_some_iff {token : Token} {op : BinaryOp} :
    binaryOp? token = some op ↔ token.kind = .symbol op.symbol := by
  rw [binaryOp?]
  split
  · next s kind_eq => simp [kind_eq, BinaryOp.ofSymbol?_eq_some_iff]
  · next other => simpa using fun kind_eq => other _ kind_eq

/-- A token that an operand takes up extends what has been read; one that ends the expression finds
it whole. -/
theorem Reaches.takeOperator {us : List Token} {e : Expr} {frames : List Frame} {token : Token}
    (h : Reaches us (.operator e frames)) :
    (∀ next, takeOperator e frames token = .more next → Reaches (us ++ [token]) next) ∧
    ∀ whole, takeOperator e frames token = .done whole →
      Spells 1 us whole ∧ binaryOp? token = none := by
  obtain ⟨kind, place⟩ := token
  cases h with
  | @operator p us es _ _ outer he =>
    cases found : binaryOp? ⟨kind, place⟩ with
    | some op =>
      obtain rfl : kind = .symbol op.symbol := binaryOp?_eq_some_iff.mp found
      have operand : Spells (max p op.level) es e :=
        he.mono (Nat.max_le.mpr ⟨outer.level_le, Nat.le_trans op.level_le_six (by decide)⟩)
      rcases reduce_spells op.one_le_level outer operand with
        ⟨q, us', es', tokens_eq, hq, outer', left⟩
      have waiting : Opens (op.level + 1) (us' ++ es' ++ [⟨.symbol op.symbol, place⟩])
          (.binary op (reduce op.level e frames).1 place :: (reduce op.level e frames).2) :=
        .binary outer' hq left
      have reached := Reaches.operand [] waiting
      simp only [ExprReader.takeOperator, found]
      refine ⟨fun next next_eq => ?_, by simp⟩
      simp only [Step.more.injEq] at next_eq
      rw [← next_eq, ← tokens_eq]
      simpa [signTokens] using reached
    | none =>
      have closed := close_spells outer (he.mono outer.level_le)
      rcases close_eq : close e frames with ⟨inner, _ | ⟨signs, rest⟩⟩
      · simp only [close_eq] at closed
        simp only [ExprReader.takeOperator, found, close_eq]
        exact ⟨by simp, fun d d_eq => ⟨by simpa [← Step.done.inj d_eq] using closed, trivial⟩⟩
      · simp only [close_eq] at closed
        obtain ⟨q, us', es', left, outer', inner_spelled, tokens_eq⟩ := closed
        simp only [ExprReader.takeOperator, found, close_eq]
        split
        · next kind_eq =>
          subst kind_eq
          have group : Spells 7
              (⟨.symbol .leftParen, left⟩ :: es' ++ [⟨.symbol .rightParen, place⟩]) inner :=
            .group inner_spelled
          have reached := Reaches.operator outer' (spells_wrap signs group)
          refine ⟨fun next next_eq => ?_, by simp⟩
          simp only [Step.more.injEq] at next_eq
          rw [← next_eq, ← tokens_eq]
          simpa using reached
        · simp

theorem Reaches.take {us : List Token} {state next : State} {token : Token}
    (h : Reaches us state) (ht : state.take token = .more next) :
    Reaches (us ++ [token]) next := by
  cases h with
  | operand signs outer =>
    obtain ⟨kind, place⟩ := token
    rw [State.take] at ht
    split at ht
    · next state' taken =>
      rw [← Step.more.inj ht]
      rcases takeOperand_cases taken with ⟨e, he, rfl⟩ | ⟨op, rfl, rfl⟩ | ⟨rfl, rfl⟩ | ⟨rfl, rfl⟩
      · simpa using Reaches.operator outer (spells_wrap signs he)
      · simpa [signTokens_cons] using Reaches.operand (⟨op, place⟩ :: signs) outer
      · exact .index place signs outer
      · simpa [signTokens] using Reaches.operand [] (Opens.group signs outer)
    · simp at ht
  | index place signs outer =>
    rw [State.take] at ht
    split at ht
    · next index found =>
      rw [← Step.more.inj ht, fieldIndex?_eq_some found]
      have field : Spells 7 [⟨.symbol .dollar, place⟩, index.token] (.field index place) := .field
      simpa using Reaches.operator outer (spells_wrap signs field)
    · simp at ht
  | operator outer he => exact (Reaches.operator outer he).takeOperator.1 next ht

theorem Reaches.take_done {us : List Token} {state : State} {token : Token} {e : Expr}
    (h : Reaches us state) (ht : state.take token = .done e) :
    Spells 1 us e ∧ binaryOp? token = none := by
  cases state with
  | operand signs frames =>
    rw [State.take] at ht
    split at ht <;> simp at ht
  | index place signs frames =>
    rw [State.take] at ht
    split at ht <;> simp at ht
  | operator d frames => exact h.takeOperator.2 e ht

def EndsExpr (rest : List Token) : Prop := ∀ token ∈ rest.head?, binaryOp? token = none

/-- An expression that is read from any state on is spelled by all tokens taken for it. -/
theorem Reaches.read_spells {us : List Token} {state : State} {tokens rest : List Token}
    {eof : Token} {e : Expr} (h : Reaches us state)
    (hr : read state tokens eof = (.ok e, rest)) :
    ∃ ts, tokens = ts ++ rest ∧ Spells 1 (us ++ ts) e ∧ EndsExpr rest := by
  induction tokens generalizing us state with
  | nil =>
    rw [ExprReader.read] at hr
    split at hr <;> simp only [Prod.mk.injEq, Except.ok.injEq, reduceCtorEq, false_and] at hr
    next whole ended =>
      obtain ⟨rfl, rfl⟩ := hr
      exact ⟨[], rfl, by simpa using (h.take_done ended).1, by simp [EndsExpr]⟩
  | cons token tokens ih =>
    rw [ExprReader.read] at hr
    split at hr
    · next next taken =>
      obtain ⟨ts, rfl, spelled, ends⟩ := ih (h.take taken) hr
      exact ⟨token :: ts, rfl, by simpa using spelled, ends⟩
    · next whole ended =>
      simp only [Prod.mk.injEq, Except.ok.injEq] at hr
      obtain ⟨rfl, rfl⟩ := hr
      obtain ⟨spelled, ends⟩ := h.take_done ended
      exact ⟨[], rfl, by simpa using spelled, by simpa [EndsExpr] using ends⟩
    · simp at hr

theorem Reaches.read {state : State} {tokens rest : List Token} {eof : Token} {e : Expr}
    (h : Reaches [] state) (hr : ExprReader.read state tokens eof = (.ok e, rest)) :
    ∃ ts, tokens = ts ++ rest ∧ Renders 1 (ts.map Token.kind) e ∧ EndsExpr rest := by
  obtain ⟨ts, tokens_eq, spelled, ends⟩ := h.read_spells hr
  exact ⟨ts, tokens_eq, spelled.renders, ends⟩

end FieldScript.ExprReader
