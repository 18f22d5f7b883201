import FieldScript.Proofs.Program.Run

/-!
# Completing what has been read

Every state of the program reader can be completed to a program: an open expression by an operand
and closing parentheses, a header by its missing parts, a statement by a semicolon, and all that is
open around it by braces. So a token is found wrong only where no program can go on with it, and
the fault does not depend on what comes behind. Main statement: a script that is no program fails at
the first token with which it is no longer the beginning of one.
-/

namespace FieldScript.Reader

/-- Some further tokens, none of them the end of a script, complete a program. -/
def State.Viable (state : State) : Prop :=
  ∃ ts final program, (∀ token ∈ ts, token.kind ≠ .eof) ∧ state.takeAll ts = .ok final ∧
    final.program? = some program

theorem State.viable_of_take {state next : State} (token : Token)
    (h : state.take token = .ok next) (viable : next.Viable) : state.Viable := by
  obtain ⟨ts, final, program, no_eof, taken, complete⟩ := viable
  refine ⟨token :: ts, final, program, ?_, by rw [takeAll_cons _ h, taken], complete⟩
  intro t ht
  rcases List.mem_cons.mp ht with rfl | ht
  · intro at_end
    obtain ⟨wanted, refused⟩ := state.take_eof at_end
    rw [h] at refused
    cases refused
  · exact no_eof t ht

theorem viable_rules (earlier : List Rule) (rule : Rule) :
    (State.between (.rules (earlier ++ [rule]))).Viable := by
  cases earlier with
  | nil => exact ⟨[], _, [rule], by simp, rfl, rfl⟩
  | cons first more => exact ⟨[], _, first :: (more ++ [rule]), by simp, rfl, rfl⟩

/-- A closing brace is right after every finished statement, and what it leaves can be completed. -/
theorem afterStatement_rightBrace (context : Context) (s : Option Stmt) (token : Token)
    (h : token.kind = .symbol .rightBrace) :
    ∃ next, afterStatement s context token = .ok next ∧ next.Viable := by
  induction context generalizing s with
  | rule earlier trigger place before =>
    refine ⟨_, ?_, viable_rules earlier ⟨trigger, before ++ s.toList, place⟩⟩
    simp [afterStatement, beginStatement, h, closeBrace]
  | block place before outer ih =>
    obtain ⟨next, closed, viable⟩ := ih (some (.block (before ++ s.toList) place))
    refine ⟨.between (.finished (some (.block (before ++ s.toList) place)) outer), ?_, ?_⟩
    · simp [afterStatement, beginStatement, h, closeBrace]
    · exact State.viable_of_take _ closed viable
  | thenBranch condition place outer ih =>
    obtain ⟨next, closed, viable⟩ := ih (some (.ifElse condition s.toList none place))
    refine ⟨next, ?_, viable⟩
    rw [afterStatement, h]
    exact closed
  | elseBranch condition thenBranch place outer ih => exact ih _
  | forBody header place outer ih => exact ih _

theorem viable_finished (s : Option Stmt) (context : Context) :
    (State.between (.finished s context)).Viable := by
  rcases afterStatement_rightBrace context s ⟨.symbol .rightBrace, .start⟩ rfl with
    ⟨next, closed, viable⟩
  exact State.viable_of_take _ closed viable

theorem viable_statement (context : Context) : (State.between (.statement context)).Viable :=
  State.viable_of_take ⟨.symbol .semicolon, .start⟩ rfl (viable_finished none context)

theorem viable_forUpdate (init : Option Simple) (condition : Option Expr) (place : Location)
    (context : Context) :
    (State.between (.forUpdate init condition place context)).Viable :=
  State.viable_of_take ⟨.symbol .rightParen, .start⟩ rfl (viable_statement _)

theorem viable_forCondition (init : Option Simple) (place : Location) (context : Context) :
    (State.between (.forCondition init place context)).Viable :=
  State.viable_of_take ⟨.symbol .semicolon, .start⟩ rfl
    (viable_forUpdate init none place context)

/-- Some token that is no binary operator is right, and leaves what can be completed. -/
def State.Continues (state : State) : Prop :=
  ∃ token next, ExprReader.binaryOp? token = none ∧ state.take token = .ok next ∧ next.Viable

theorem State.Continues.viable {state : State} (h : state.Continues) : state.Viable := by
  obtain ⟨token, next, -, taken, viable⟩ := h
  exact viable_of_take _ taken viable

theorem continues_filled (s : Simple) (slot : Slot) :
    (State.between (slot.filled s)).Continues := by
  cases slot with
  | statement context =>
    rcases afterStatement_rightBrace context (some (.simple s)) ⟨.symbol .rightBrace, .start⟩ rfl
      with ⟨next, closed, viable⟩
    exact ⟨_, next, rfl, closed, viable⟩
  | forInit place context =>
    exact ⟨⟨.symbol .semicolon, .start⟩, _, rfl, rfl, viable_forCondition (some s) place context⟩
  | forUpdate init condition place context =>
    exact ⟨⟨.symbol .rightParen, .start⟩, _, rfl, rfl, viable_statement _⟩

theorem continues_printed (args : List Expr) (place : Location) (context : Context) :
    (State.between (.printed args place context)).Continues := by
  rcases afterStatement_rightBrace context (some (.print args place))
    ⟨.symbol .rightBrace, .start⟩ rfl with ⟨next, closed, viable⟩
  refine ⟨⟨.symbol .rightBrace, .start⟩, next, rfl, ?_, viable⟩
  rw [State.take, Mode.take, if_neg (by simp)]
  exact closed

theorem continues_served (e : Expr) (purpose : Purpose) :
    (State.between (purpose.served e)).Continues := by
  cases purpose with
  | pattern earlier place =>
    exact ⟨⟨.symbol .leftBrace, .start⟩, _, rfl, rfl, viable_statement _⟩
  | printArg before place context => exact continues_printed (before ++ [e]) place context
  | assign name op place slot => exact continues_filled _ slot
  | ifCondition place context =>
    exact ⟨⟨.symbol .rightParen, .start⟩, _, rfl, rfl, viable_statement _⟩
  | forCondition init place context =>
    exact ⟨⟨.symbol .semicolon, .start⟩, _, rfl, rfl, viable_forUpdate init (some e) place context⟩

/-- After an operand its parentheses are closed one by one, and then the purpose goes on. -/
theorem continues_operator (e : Expr) (frames : List ExprReader.Frame) (purpose : Purpose) :
    (State.inExpr (.operator e frames) purpose).Continues := by
  induction frames generalizing e with
  | nil =>
    obtain ⟨token, next, plain, taken, viable⟩ := continues_served e purpose
    have ended : (ExprReader.State.operator e []).take token = .done e := by
      simp only [ExprReader.State.take, ExprReader.takeOperator, plain, ExprReader.close]
    exact ⟨token, next, plain, by rw [take_inExpr_done purpose ended]; exact taken, viable⟩
  | cons frame frames ih =>
    cases frame with
    | binary op left place =>
      obtain ⟨token, next, plain, taken, viable⟩ := ih (.binary op left e place)
      refine ⟨token, next, plain, ?_, viable⟩
      rw [← taken]
      simp only [State.take, ExprReader.State.take, ExprReader.takeOperator, plain,
        ExprReader.close]
    | group signs =>
      exact ⟨⟨.symbol .rightParen, .start⟩, _, rfl, rfl, (ih (ExprReader.wrap signs e)).viable⟩

theorem viable_inExpr (state : ExprReader.State) (purpose : Purpose) :
    (State.inExpr state purpose).Viable := by
  cases state with
  | operand signs frames =>
    exact State.viable_of_take ⟨.name "x", .start⟩ rfl
      (continues_operator _ frames purpose).viable
  | index place signs frames =>
    exact State.viable_of_take ⟨.name "x", .start⟩ rfl
      (continues_operator _ frames purpose).viable
  | operator e frames => exact (continues_operator e frames purpose).viable

theorem viable_between (mode : Mode) : (State.between mode).Viable := by
  induction mode with
  | rules earlier =>
    exact State.viable_of_take ⟨.symbol .leftBrace, .start⟩ rfl (viable_statement _)
  | expect s next ih =>
    refine State.viable_of_take ⟨.symbol s, .start⟩ ?_ ih
    simp [State.take, Mode.take]
  | statement context => exact viable_statement context
  | finished s context => exact viable_finished s context
  | printed args place context => exact (continues_printed args place context).viable
  | ifCondition place context =>
    exact State.viable_of_take ⟨.name "x", .start⟩ rfl (viable_inExpr _ _)
  | stepped step place slot =>
    exact State.viable_of_take ⟨.name "x", .start⟩ rfl (continues_filled _ slot).viable
  | named x place slot =>
    exact State.viable_of_take ⟨.symbol .plusPlus, .start⟩ rfl
      (continues_filled _ slot).viable
  | forInit place context =>
    exact State.viable_of_take ⟨.symbol .semicolon, .start⟩ rfl
      (viable_forCondition none place context)
  | forCondition init place context => exact viable_forCondition init place context
  | forUpdate init condition place context => exact viable_forUpdate init condition place context

/-- No state is a dead end. -/
theorem viable (state : State) : state.Viable := by
  cases state with
  | between mode => exact viable_between mode
  | inExpr state purpose => exact viable_inExpr state purpose

end FieldScript.Reader
