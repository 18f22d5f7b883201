import FieldScript.Proofs.Program.Rendering

/-!
# Reading the parts of a statement

The rendering of an expression, of an assignment or increment, of a loop header or of arguments
takes the reader to the state that waits behind that part, with the part as it was rendered,
locations aside. An expression is ended only by the token behind it, so the state is known by what
it does on tokens that are no binary operators.
-/

namespace FieldScript.Reader

variable {token : Token} {state mid : State} {ts : List Token}

theorem binaryOp?_eq_none {s : Symbol} (h : token.kind = .symbol s)
    (plain : BinaryOp.ofSymbol? s = none) : ExprReader.binaryOp? token = none := by
  rw [ExprReader.binaryOp?, h]
  exact plain

/-- States that do the same on a token do the same on all tokens from it on. -/
theorem State.takeAll_congr {other : State} (rest : List Token)
    (h : state.take token = other.take token) :
    state.takeAll (token :: rest) = other.takeAll (token :: rest) := by
  rw [takeAll, takeAll, h]

theorem State.takeAll_ne_eof {final : State} (h : state.takeAll ts = .ok final) :
    ∀ token ∈ ts, token.kind ≠ .eof := by
  induction ts generalizing state with
  | nil => simp
  | cons first ts ih =>
    obtain ⟨next, taken, h⟩ := takeAll_cons_eq_ok h
    intro token member at_end
    rcases List.mem_cons.mp member with rfl | member
    · obtain ⟨wanted, refused⟩ := state.take_eof at_end
      rw [taken] at refused
      cases refused
    · exact ih h token member at_end

/-- A state that does what a mode does on every token that is no binary operator. -/
def State.EndsAs (state : State) (mode : Mode) : Prop :=
  ∀ token, ExprReader.binaryOp? token = none → state.take token = mode.take token

theorem State.endsAs_between (mode : Mode) : (State.between mode).EndsAs mode := fun _ _ => rfl

theorem State.EndsAs.take {mode : Mode} {s : Symbol} (h : state.EndsAs mode)
    (kind_eq : token.kind = .symbol s) (plain : BinaryOp.ofSymbol? s = none) :
    state.take token = mode.take token :=
  h token (binaryOp?_eq_none kind_eq plain)

theorem take_inExpr_start (purpose : Purpose) (token : Token) :
    (State.inExpr .start purpose).take token = beginExpr purpose token := by
  simp only [State.take, ExprReader.State.start, ExprReader.State.take, beginExpr]
  cases ExprReader.takeOperand [] [] token <;> rfl

theorem takeAll_expr (e : Expr) (purpose : Purpose) (h : ts.map Token.kind = e.render) :
    ∃ d final, d.bare = e.bare ∧ (State.inExpr .start purpose).takeAll ts = .ok final ∧
      final.EndsAs (purpose.served d) := by
  rcases ExprReader.takeAll_of_renders (renders_render 1 e) [] [] h (.inr rfl) trivial with
    ⟨d, operand, pending, bare_eq, taken, complete⟩
  refine ⟨d, _, bare_eq, takeAll_inExpr purpose taken, ?_⟩
  intro token plain
  apply take_inExpr_done
  simp only [ExprReader.State.take, ExprReader.takeOperator, plain, complete.close,
    ExprReader.close, ExprReader.wrap_nil]

/-- The first token of an expression begins nothing else. -/
theorem render_head (e : Expr) : ∃ kind kinds, e.render = kind :: kinds ∧
    kind ≠ .symbol .semicolon ∧ kind ≠ .symbol .leftBrace ∧ kind ≠ .symbol .beginWord ∧
    kind ≠ .symbol .endWord := by
  cases e with
  | literal v place => cases v <;> exact ⟨_, _, rfl, by simp [Value.tokenKind]⟩
  | var x place => exact ⟨_, _, rfl, by simp⟩
  | field index place => exact ⟨_, _, rfl, by simp⟩
  | binary op left right place => exact ⟨_, _, rfl, by simp⟩
  | unary op operand place => exact ⟨_, _, rfl, by simp⟩

/-- An expression is read from a mode that begins one with the first token. -/
theorem takeAll_expr_from (mode : Mode) (e : Expr) (purpose : Location → Purpose)
    (begins : ∀ token, token.kind ≠ .symbol .semicolon → token.kind ≠ .symbol .leftBrace →
      token.kind ≠ .symbol .beginWord → token.kind ≠ .symbol .endWord →
      mode.take token = beginExpr (purpose token.place) token)
    (h : ts.map Token.kind = e.render) :
    ∃ d place final, d.bare = e.bare ∧ (State.between mode).takeAll ts = .ok final ∧
      final.EndsAs ((purpose place).served d) := by
  obtain ⟨kind, kinds, render_eq, no_semicolon, no_brace, no_begin, no_end⟩ := render_head e
  obtain ⟨first, rest, rfl, first_eq, rest_eq⟩ := List.map_eq_cons_iff.mp (h.trans render_eq)
  obtain ⟨d, final, bare_eq, taken, ends⟩ := takeAll_expr e (purpose first.place) h
  refine ⟨d, first.place, final, bare_eq, ?_, ends⟩
  rw [← taken]
  apply State.takeAll_congr
  rw [take_inExpr_start]
  subst first_eq
  exact begins first no_semicolon no_brace no_begin no_end

theorem assignment?_assignSymbol (op : Option Arith) :
    assignment? (.symbol (assignSymbol op)) = some op ∧
      step? (.symbol (assignSymbol op)) = none := by
  rcases op with _ | op
  · exact ⟨rfl, rfl⟩
  · cases op <;> exact ⟨rfl, rfl⟩

theorem step?_symbol (step : Step) : step? (.symbol step.symbol) = some step := by
  cases step <;> rfl

/-- The mode that waits for an assignment or increment of a slot. -/
def Slot.entry : Slot → Mode
  | statement context => .statement context
  | forInit place context => .forInit place context
  | forUpdate init condition place context => .forUpdate init condition place context

theorem take_entry_name (slot : Slot) {x : String} (h : token.kind = .name x) :
    (State.between slot.entry).take token = .ok (.between (.named x token.place slot)) := by
  cases slot <;> simp [Slot.entry, State.take, Mode.take, beginStatement, beginSimple, step?, h]

theorem take_entry_step (slot : Slot) {step : Step} (h : token.kind = .symbol step.symbol) :
    (State.between slot.entry).take token = .ok (.between (.stepped step token.place slot)) := by
  cases step <;> cases slot <;>
    simp [Slot.entry, State.take, Mode.take, beginStatement, beginSimple, step?, h, Step.symbol]

theorem takeAll_simple (s : Simple) (slot : Slot) (h : ts.map Token.kind = s.render) :
    ∃ d final, d.bare = s.bare ∧ (State.between slot.entry).takeAll ts = .ok final ∧
      final.EndsAs (slot.filled d) := by
  cases s with
  | assign x op value place =>
    obtain ⟨target, ts, rfl, target_eq, ts_eq⟩ := List.map_eq_cons_iff.mp h
    obtain ⟨sign, ts, rfl, sign_eq, ts_eq⟩ := List.map_eq_cons_iff.mp ts_eq
    rcases takeAll_expr value (.assign x op target.place slot) ts_eq with
      ⟨d, final, bare_eq, taken, ends⟩
    refine ⟨.assign x op d target.place, final, ?_, ?_, ends⟩
    · simp only [Simple.bare, Simple.relocate, bare_eq]
    · have assigned : (State.between (.named x target.place slot)).take sign =
          .ok (.inExpr .start (.assign x op target.place slot)) := by
        simp [State.take, Mode.take, sign_eq, assignment?_assignSymbol]
      rw [State.takeAll_cons _ (take_entry_name slot target_eq), State.takeAll_cons _ assigned,
        taken]
  | increment x step side place =>
    cases side with
    | before =>
      obtain ⟨sign, ts, rfl, sign_eq, ts_eq⟩ := List.map_eq_cons_iff.mp h
      obtain ⟨target, rfl, target_eq⟩ := List.map_eq_singleton_iff.mp ts_eq
      refine ⟨.increment x step .before sign.place, _, rfl, ?_, State.endsAs_between _⟩
      rw [State.takeAll_cons _ (take_entry_step slot sign_eq)]
      simp [State.takeAll, State.take, Mode.take, target_eq, bind, Except.bind]
    | after =>
      obtain ⟨target, ts, rfl, target_eq, ts_eq⟩ := List.map_eq_cons_iff.mp h
      obtain ⟨sign, rfl, sign_eq⟩ := List.map_eq_singleton_iff.mp ts_eq
      refine ⟨.increment x step .after target.place, _, rfl, ?_, State.endsAs_between _⟩
      rw [State.takeAll_cons _ (take_entry_name slot target_eq)]
      simp [State.takeAll, State.take, Mode.take, sign_eq, step?_symbol, bind, Except.bind]

/-- A part that may be missing is ended by its separator either way. -/
theorem takeAll_optional {α : Type} {render : α → List TokenKind} {bare : α → α} {mode : Mode}
    (next : Option α → Mode) {separator : Symbol} (plain : BinaryOp.ofSymbol? separator = none)
    (absent : ∀ token, token.kind = .symbol separator →
      mode.take token = .ok (.between (next none)))
    (present : ∀ a ts, ts.map Token.kind = render a → ∃ d final, bare d = bare a ∧
      (State.between mode).takeAll ts = .ok final ∧
      final.EndsAs (.expect separator (next (some d))))
    (part : Option α) (h : ts.map Token.kind = part.elim [] render ++ [.symbol separator]) :
    ∃ d, d.map bare = part.map bare ∧
      (State.between mode).takeAll ts = .ok (.between (next d)) := by
  obtain ⟨ts, last, rfl, ts_eq, last_eq⟩ := List.map_eq_append_iff.mp h
  obtain ⟨token, rfl, token_eq⟩ := List.map_eq_singleton_iff.mp last_eq
  cases part with
  | none =>
    rw [List.map_eq_nil_iff.mp ts_eq]
    exact ⟨none, rfl, State.takeAll_cons [] (absent token token_eq)⟩
  | some a =>
    obtain ⟨d, final, bare_eq, taken, ends⟩ := present a ts ts_eq
    refine ⟨some d, congrArg some bare_eq, ?_⟩
    rw [State.takeAll_append _ taken]
    apply State.takeAll_cons []
    rw [ends.take token_eq plain, Mode.take, if_pos token_eq]

theorem takeAll_forInit (init : Option Simple) (place : Location) (context : Context)
    (h : ts.map Token.kind = init.elim [] Simple.render ++ [.symbol .semicolon]) :
    ∃ d, d.map Simple.bare = init.map Simple.bare ∧
      (State.between (.forInit place context)).takeAll ts =
        .ok (.between (.forCondition d place context)) := by
  apply takeAll_optional (fun d => .forCondition d place context) rfl _ _ init h
  · intro token token_eq
    rw [Mode.take, if_pos token_eq]
  · intro s ts ts_eq
    exact takeAll_simple s (.forInit place context) ts_eq

theorem takeAll_forCondition (init : Option Simple) (condition : Option Expr) (place : Location)
    (context : Context)
    (h : ts.map Token.kind = condition.elim [] Expr.render ++ [.symbol .semicolon]) :
    ∃ d, d.map Expr.bare = condition.map Expr.bare ∧
      (State.between (.forCondition init place context)).takeAll ts =
        .ok (.between (.forUpdate init d place context)) := by
  apply takeAll_optional (fun d => .forUpdate init d place context) rfl _ _ condition h
  · intro token token_eq
    rw [Mode.take, if_pos token_eq]
  · intro e ts ts_eq
    have begins (first : Token) (no_semicolon : first.kind ≠ .symbol .semicolon) :
        (Mode.forCondition init place context).take first =
          beginExpr (.forCondition init place context) first := by
      rw [Mode.take, if_neg no_semicolon]
    rcases takeAll_expr_from (.forCondition init place context) e
        (fun _ => .forCondition init place context)
        (fun first no_semicolon _ _ _ => begins first no_semicolon) ts_eq with
      ⟨d, -, final, facts⟩
    exact ⟨d, final, facts⟩

theorem takeAll_forUpdate (init : Option Simple) (condition : Option Expr)
    (update : Option Simple) (place : Location) (context : Context)
    (h : ts.map Token.kind = update.elim [] Simple.render ++ [.symbol .rightParen]) :
    ∃ d, d.map Simple.bare = update.map Simple.bare ∧
      (State.between (.forUpdate init condition place context)).takeAll ts =
        .ok (.between (loopBody init condition d place context)) := by
  apply takeAll_optional (fun d => loopBody init condition d place context) rfl _ _ update h
  · intro token token_eq
    rw [Mode.take, if_pos token_eq]
  · intro s ts ts_eq
    exact takeAll_simple s (.forUpdate init condition place context) ts_eq

theorem takeAll_header (header : LoopHeader) (place : Location) (context : Context)
    (h : ts.map Token.kind = header.render) :
    ∃ d : LoopHeader, d.relocate (fun _ => .start) = header.relocate (fun _ => .start) ∧
      (State.between (.expect .leftParen (.forInit place context))).takeAll ts =
        .ok (.between (.statement (.forBody d place context))) := by
  obtain ⟨front, updateTs, rfl, front_eq, update_eq⟩ := List.map_eq_append_iff.mp h
  obtain ⟨front, conditionTs, rfl, front_eq, condition_eq⟩ := List.map_eq_append_iff.mp front_eq
  obtain ⟨paren, initTs, rfl, paren_eq, init_eq⟩ := List.map_eq_cons_iff.mp front_eq
  obtain ⟨init, init_bare, init_taken⟩ := takeAll_forInit header.init place context init_eq
  rcases takeAll_forCondition init header.condition place context condition_eq with
    ⟨condition, condition_bare, condition_taken⟩
  rcases takeAll_forUpdate init condition header.update place context update_eq with
    ⟨update, update_bare, update_taken⟩
  refine ⟨⟨init, condition, update⟩, ?_, ?_⟩
  · simp only [LoopHeader.relocate, init_bare, condition_bare, update_bare]
  · have opened : (State.between (.expect .leftParen (.forInit place context))).take paren =
        .ok (.between (.forInit place context)) := by
      simp [State.take, Mode.take, paren_eq]
    rw [List.append_assoc, List.cons_append, State.takeAll_cons _ opened,
      State.takeAll_append _ init_taken, State.takeAll_append _ condition_taken, update_taken]
    rfl

theorem takeAll_more (args before : List Expr) (place : Location) (context : Context)
    (start : state.EndsAs (.printed before place context))
    (h : ts.map Token.kind = renderMore args) :
    ∃ ds final, ds.map Expr.bare = args.map Expr.bare ∧ state.takeAll ts = .ok final ∧
      final.EndsAs (.printed (before ++ ds) place context) := by
  induction args generalizing before state ts with
  | nil =>
    rw [List.map_eq_nil_iff.mp h]
    exact ⟨[], state, rfl, rfl, by simpa using start⟩
  | cons e rest ih =>
    rcases List.map_eq_append_iff.mp (h.trans List.flatMap_cons) with
      ⟨firstTs, moreTs, rfl, first_eq, more_eq⟩
    obtain ⟨comma, eTs, rfl, comma_eq, e_eq⟩ := List.map_eq_cons_iff.mp first_eq
    rcases takeAll_expr e (.printArg before place context) e_eq with
      ⟨d, mid, d_bare, d_taken, d_ends⟩
    obtain ⟨ds, final, ds_bare, ds_taken, ds_ends⟩ := ih (before ++ [d]) d_ends more_eq
    have separated : state.take comma = .ok (.inExpr .start (.printArg before place context)) := by
      rw [start.take comma_eq rfl]
      simp [Mode.take, comma_eq]
    refine ⟨d :: ds, final, ?_, ?_, by simpa using ds_ends⟩
    · rw [List.map_cons, List.map_cons, d_bare, ds_bare]
    · rw [List.cons_append, State.takeAll_cons _ separated, State.takeAll_append _ d_taken,
        ds_taken]

end FieldScript.Reader
