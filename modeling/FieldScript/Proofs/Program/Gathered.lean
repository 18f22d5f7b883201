import FieldScript.Proofs.Program.CorrectPrefix
import FieldScript.Proofs.Program.Spelling

/-!
# What has been read of a program

The tokens taken so far spell the state of the reader: the finished rules, what is open around the
statement being read, and the part of that statement in hand. Each further token keeps this, through
the semicolons that wait for an `else` and the braces of a loop body. Main statement: the tokens of
a program that is parsed spell it, with every node at its token, and without the delimiters they are
its yield.
-/

namespace FieldScript.Reader

/-- Tokens that open what a statement is part of. -/
inductive Opens : List Token → Context → Prop where
  | rule {ts fs us : List Token} {earlier : List Rule} {trigger : Trigger} {place : Location}
    {before : List Stmt} (rules : SpellsProgram ts earlier)
    (front : SpellsFront fs trigger place) (body : SpellsAll us before) :
    Opens (ts ++ fs ++ us) (.rule earlier trigger place before)
  | block {ts us : List Token} {place : Location} {before : List Stmt} {outer : Context}
    (around : Opens ts outer) (body : SpellsAll us before) :
    Opens (ts ++ ⟨.symbol .leftBrace, place⟩ :: us) (.block place before outer)
  | thenBranch {ts fs : List Token} {condition : Expr} {place : Location} {outer : Context}
    (around : Opens ts outer) (front : SpellsIf fs condition place) :
    Opens (ts ++ fs) (.thenBranch condition place outer)
  | elseBranch {ts fs us gap : List Token} {condition : Expr} {s : Option Stmt}
    {place elseWord : Location} {outer : Context} (around : Opens ts outer)
    (front : SpellsIf fs condition place) (branch : SpellsStmt us s)
    (semicolons : Semicolons gap) :
    Opens (ts ++ fs ++ us ++ gap ++ [⟨.symbol .elseWord, elseWord⟩])
      (.elseBranch condition s.toList place outer)
  | forBody {ts fs : List Token} {header : LoopHeader} {place : Location} {outer : Context}
    (around : Opens ts outer) (front : SpellsFor fs header place) :
    Opens (ts ++ fs) (.forBody header place outer)

inductive OpensFor : List Token → Location → Context → Prop where
  | mk {ts : List Token} {place left : Location} {context : Context} (around : Opens ts context) :
    OpensFor (ts ++ [⟨.symbol .forWord, place⟩, ⟨.symbol .leftParen, left⟩]) place context

inductive OpensCondition : List Token → Option Simple → Location → Context → Prop where
  | mk {ts us : List Token} {init : Option Simple} {place first : Location} {context : Context}
    (front : OpensFor ts place context) (h : SpellsOptional SpellsSimple us init) :
    OpensCondition (ts ++ us ++ [⟨.symbol .semicolon, first⟩]) init place context

inductive OpensUpdate :
    List Token → Option Simple → Option Expr → Location → Context → Prop where
  | mk {ts us : List Token} {init : Option Simple} {condition : Option Expr}
    {place second : Location} {context : Context} (front : OpensCondition ts init place context)
    (h : SpellsOptional (Spells 1) us condition) :
    OpensUpdate (ts ++ us ++ [⟨.symbol .semicolon, second⟩]) init condition place context

theorem OpensUpdate.forBody {ts us : List Token} {init update : Option Simple}
    {condition : Option Expr} {place : Location} {context : Context}
    (front : OpensUpdate ts init condition place context)
    (h : SpellsOptional SpellsSimple us update) (right : Location) :
    Opens (ts ++ us ++ [⟨.symbol .rightParen, right⟩])
      (.forBody ⟨init, condition, update⟩ place context) := by
  obtain ⟨⟨⟨around⟩, init_spelled⟩, condition_spelled⟩ := front
  simpa using Opens.forBody around (.mk init_spelled condition_spelled h)

/-- The arguments that are read, each with the comma behind it. -/
inductive OpensArgs : List Token → List Expr → Prop where
  | none : OpensArgs [] []
  | comma {ts : List Token} {args : List Expr} {comma : Location} (h : SpellsArgs ts args) :
    OpensArgs (ts ++ [⟨.symbol .comma, comma⟩]) args

theorem OpensArgs.spells {ts us : List Token} {args : List Expr} {e : Expr}
    (h : OpensArgs ts args) (he : Spells 1 us e) : SpellsArgs (ts ++ us) (args ++ [e]) := by
  cases h with
  | none => exact .first he
  | comma h => simpa using SpellsArgs.more h he

/-- Tokens that open the place of an assignment or increment. -/
def Slot.OpenedBy (ts : List Token) : Slot → Prop
  | statement context => Opens ts context
  | forInit place context => OpensFor ts place context
  | forUpdate init condition place context => OpensUpdate ts init condition place context

/-- Tokens of what an expression is read for, and then of the expression itself, of which only the
first matters. -/
def Purpose.OpenedBy (ts es : List Token) : Purpose → Prop
  | pattern earlier place => SpellsProgram ts earlier ∧ es.head?.map Token.place = some place
  | printArg before place context => ∃ us vs, ts = us ++ ⟨.symbol .printWord, place⟩ :: vs ∧
      Opens us context ∧ OpensArgs vs before
  | assign name op place slot => ∃ us sign,
      ts = us ++ [⟨.name name, place⟩, ⟨.symbol (assignSymbol op), sign⟩] ∧ slot.OpenedBy us
  | ifCondition place context => ∃ us left,
      ts = us ++ [⟨.symbol .ifWord, place⟩, ⟨.symbol .leftParen, left⟩] ∧ Opens us context
  | forCondition init place context => OpensCondition ts init place context

/-- Tokens of all that is finished and of what is in hand. A token that is expected may stand at any
place. -/
def Mode.SpelledBy (ts : List Token) : Mode → Prop
  | rules earlier => SpellsProgram ts earlier
  | expect s next => ∀ place, next.SpelledBy (ts ++ [⟨.symbol s, place⟩])
  | statement context => Opens ts context
  | finished s context => ∃ us vs gap, ts = us ++ vs ++ gap ∧ Opens us context ∧
      SpellsStmt vs s ∧ Semicolons gap
  | printed args place context => ∃ us vs, ts = us ++ ⟨.symbol .printWord, place⟩ :: vs ∧
      Opens us context ∧ SpellsArgs vs args
  | ifCondition place context => ∃ us left,
      ts = us ++ [⟨.symbol .ifWord, place⟩, ⟨.symbol .leftParen, left⟩] ∧ Opens us context
  | stepped step place slot => ∃ us, ts = us ++ [⟨.symbol step.symbol, place⟩] ∧ slot.OpenedBy us
  | named name place slot => ∃ us, ts = us ++ [⟨.name name, place⟩] ∧ slot.OpenedBy us
  | forInit place context => OpensFor ts place context
  | forCondition init place context => OpensCondition ts init place context
  | forUpdate init condition place context => OpensUpdate ts init condition place context

def State.SpelledBy (ts : List Token) : State → Prop
  | between mode => mode.SpelledBy ts
  | inExpr state purpose => ∃ us es, ts = us ++ es ∧ purpose.OpenedBy us es ∧
      ExprReader.Reaches es state

variable {ts us es : List Token} {context : Context} {slot : Slot} {purpose : Purpose}
  {token : Token} {next : State}

theorem Slot.spelledBy_filled {s : Simple} (h : slot.OpenedBy ts) (hs : SpellsSimple us s) :
    (slot.filled s).SpelledBy (ts ++ us) := by
  cases slot with
  | statement context => exact ⟨ts, us, [], by simp, h, .simple hs, .nil⟩
  | forInit place context => exact fun first => .mk h (.some hs)
  | forUpdate init condition place context => exact fun right => h.forBody (.some hs) right

theorem Purpose.spelledBy_served {e : Expr} (h : purpose.OpenedBy ts es) (he : Spells 1 es e) :
    (purpose.served e).SpelledBy (ts ++ es) := by
  cases purpose with
  | pattern earlier place =>
    obtain ⟨rules, first⟩ := h
    intro left
    cases es with
    | nil => cases first
    | cons token es =>
      rw [← Option.some.inj first]
      simpa [Mode.SpelledBy] using Opens.rule rules (.pattern he) .nil
  | printArg before place context =>
    obtain ⟨us, vs, rfl, around, args⟩ := h
    exact ⟨us, vs ++ es, by simp, around, args.spells he⟩
  | assign name op place slot =>
    obtain ⟨us, sign, rfl, opened⟩ := h
    simpa [Purpose.served] using slot.spelledBy_filled opened (.assign he)
  | ifCondition place context =>
    obtain ⟨us, left, rfl, around⟩ := h
    intro right
    simpa [Mode.SpelledBy] using Opens.thenBranch around (.mk he)
  | forCondition init place context => exact fun second => .mk h (.some he)

theorem spelledBy_beginExpr (h : purpose.OpenedBy ts [token])
    (taken : beginExpr purpose token = .ok next) : next.SpelledBy (ts ++ [token]) := by
  rw [beginExpr] at taken
  cases found : ExprReader.takeOperand [] [] token with
  | error wanted => simp [found, Except.map] at taken
  | ok state =>
    simp only [found, Except.map, Except.ok.injEq] at taken
    rw [← taken]
    have begun : ExprReader.State.start.take token = .more state := by
      simp only [ExprReader.State.start, ExprReader.State.take, found]
    exact ⟨ts, [token], rfl, h, ExprReader.Reaches.start.take begun⟩

theorem step?_eq_some {kind : TokenKind} {step : Step} (h : step? kind = some step) :
    kind = .symbol step.symbol := by
  rw [step?.eq_def] at h
  split at h <;> simp only [Option.some.injEq, reduceCtorEq] at h
  all_goals
    rw [← h]
    rfl

theorem assignment?_eq_some {kind : TokenKind} {op : Option Arith}
    (h : assignment? kind = some op) : kind = .symbol (assignSymbol op) := by
  rw [assignment?.eq_def] at h
  split at h <;> simp only [Option.some.injEq, reduceCtorEq] at h
  all_goals
    rw [← h]
    rfl

theorem spelledBy_beginSimple (h : slot.OpenedBy ts) (taken : beginSimple slot token = .ok next) :
    next.SpelledBy (ts ++ [token]) := by
  obtain ⟨kind, place⟩ := token
  rw [beginSimple] at taken
  split at taken <;> simp only [Except.ok.injEq, reduceCtorEq] at taken
  · next step found =>
    obtain rfl := step?_eq_some found
    rw [← taken]
    exact ⟨ts, rfl, h⟩
  · next x not_step kind_eq =>
    subst kind_eq
    rw [← taken]
    exact ⟨ts, rfl, h⟩

theorem spelledBy_closeBrace (h : Opens ts context) (taken : closeBrace context = .ok next)
    (right : Location) : next.SpelledBy (ts ++ [⟨.symbol .rightBrace, right⟩]) := by
  rw [closeBrace.eq_def] at taken
  split at taken <;> simp only [Except.ok.injEq, reduceCtorEq] at taken
  · rw [← taken]
    cases h with
    | rule rules front body => exact .snoc rules front body
  · next place before outer =>
    rw [← taken]
    cases h with
    | @block ts us _ _ _ around body =>
      exact ⟨ts, ⟨.symbol .leftBrace, place⟩ :: us ++ [⟨.symbol .rightBrace, right⟩], [], by simp,
        around, .block body, .nil⟩

theorem spelledBy_beginStatement (h : Opens ts context)
    (taken : beginStatement context token = .ok next) : next.SpelledBy (ts ++ [token]) := by
  obtain ⟨kind, place⟩ := token
  rw [beginStatement] at taken
  split at taken <;> try simp only [Except.ok.injEq, reduceCtorEq] at taken
  · next kind_eq =>
    subst kind_eq
    rw [← taken]
    exact ⟨ts, [⟨.symbol .semicolon, place⟩], [], by simp, h, .semicolon, .nil⟩
  · next kind_eq =>
    subst kind_eq
    rw [← taken]
    exact .block h .nil
  · next kind_eq =>
    subst kind_eq
    exact spelledBy_closeBrace h taken place
  · next kind_eq =>
    subst kind_eq
    rw [← taken]
    exact fun left => ⟨ts, left, by simp, h⟩
  · next kind_eq =>
    subst kind_eq
    rw [← taken]
    intro left
    simpa [Mode.SpelledBy] using OpensFor.mk h
  · next kind_eq =>
    subst kind_eq
    rw [← taken]
    exact fun semicolon => ⟨ts, [⟨.symbol .breakWord, place⟩, ⟨.symbol .semicolon, semicolon⟩], [],
      by simp, h, .breakLoop, .nil⟩
  · next kind_eq =>
    subst kind_eq
    rw [← taken]
    exact ⟨ts ++ [⟨.symbol .printWord, place⟩], [], by simp, ⟨ts, [], rfl, h, .none⟩, .start⟩
  all_goals exact spelledBy_beginSimple (show (Slot.statement context).OpenedBy ts from h) taken

/-- Semicolons behind a statement of a list are statements of their own there. -/
theorem spellsAll_semicolons {gap : List Token} {before : List Stmt} (h : SpellsAll ts before)
    (semicolons : Semicolons gap) : SpellsAll (ts ++ gap) before := by
  induction gap generalizing ts with
  | nil => simpa using h
  | cons token gap ih =>
    obtain ⟨kind, place⟩ := token
    obtain rfl : kind = .symbol .semicolon := semicolons ⟨kind, place⟩ List.mem_cons_self
    have one : SpellsAll (ts ++ [⟨.symbol .semicolon, place⟩]) before := by
      simpa using SpellsAll.snoc h .semicolon
    simpa using ih one fun token member => semicolons token (List.mem_cons_of_mem _ member)

/-- The semicolons behind a finished statement wait for an `else`. Without it they are left to the
list of statements around. -/
theorem spelledBy_afterStatement {s : Option Stmt} {gap : List Token} (h : Opens ts context)
    (hs : SpellsStmt us s) (semicolons : Semicolons gap)
    (taken : afterStatement s context token = .ok next) :
    next.SpelledBy (ts ++ us ++ gap ++ [token]) := by
  induction context generalizing ts us s with
  | rule earlier trigger place before =>
    cases h with
    | rule rules front body =>
      have all := spellsAll_semicolons (.snoc body hs) semicolons
      simpa using spelledBy_beginStatement (.rule rules front all) taken
  | block place before outer ih =>
    cases h with
    | block around body =>
      have all := spellsAll_semicolons (.snoc body hs) semicolons
      simpa using spelledBy_beginStatement (.block around all) taken
  | thenBranch condition place outer ih =>
    cases h with
    | @thenBranch ts fs _ _ _ around front =>
      obtain ⟨kind, site⟩ := token
      rw [afterStatement] at taken
      split at taken
      · next semicolon =>
        obtain rfl : kind = .symbol .semicolon := semicolon
        rw [← Except.ok.inj taken]
        exact ⟨ts ++ fs, us, gap ++ [⟨.symbol .semicolon, site⟩], by simp,
          .thenBranch around front, hs, semicolons.snoc site⟩
      · next elseWord =>
        obtain rfl : kind = .symbol .elseWord := elseWord
        rw [← Except.ok.inj taken]
        exact .elseBranch around front hs semicolons
      · -- The `if` ends before the semicolons, which now wait behind it in the outer context.
        simpa using ih around (.ifOnly front hs) taken
  | elseBranch condition branch place outer ih =>
    cases h with
    | elseBranch around front thenBranch waiting =>
      simpa using ih around (.ifElse front thenBranch waiting hs) taken
  | forBody header place outer ih =>
    cases h with
    | forBody around front => simpa using ih around (.forLoop front hs) taken

theorem spelledBy_beginRule {earlier : List Rule} (h : SpellsProgram ts earlier)
    (taken : beginRule earlier token = .ok next) : next.SpelledBy (ts ++ [token]) := by
  obtain ⟨kind, place⟩ := token
  rw [beginRule] at taken
  split at taken <;> try simp only [Except.ok.injEq] at taken
  · next kind_eq =>
    subst kind_eq
    rw [← taken]
    intro left
    simpa [Mode.SpelledBy] using Opens.rule h .atStart .nil
  · next kind_eq =>
    subst kind_eq
    rw [← taken]
    intro left
    simpa [Mode.SpelledBy] using Opens.rule h .atEnd .nil
  · next kind_eq =>
    subst kind_eq
    rw [← taken]
    simpa [Mode.SpelledBy, State.SpelledBy] using Opens.rule h .always .nil
  · have opened : (Purpose.pattern earlier place).OpenedBy ts [⟨kind, place⟩] := ⟨h, rfl⟩
    exact spelledBy_beginExpr opened taken

theorem Mode.spelledBy_take {mode : Mode} (h : mode.SpelledBy ts)
    (taken : mode.take token = .ok next) : next.SpelledBy (ts ++ [token]) := by
  obtain ⟨kind, site⟩ := token
  cases mode with
  | rules earlier => exact spelledBy_beginRule h taken
  | expect s mode =>
    rw [Mode.take] at taken
    split at taken
    · next kind_eq =>
      obtain rfl : kind = .symbol s := kind_eq
      rw [← Except.ok.inj taken]
      exact h site
    · simp at taken
  | statement context => exact spelledBy_beginStatement h taken
  | finished s context =>
    obtain ⟨us, vs, gap, rfl, around, hs, semicolons⟩ := h
    exact spelledBy_afterStatement around hs semicolons taken
  | printed args place context =>
    obtain ⟨us, vs, rfl, around, hargs⟩ := h
    rw [Mode.take] at taken
    split at taken
    · next kind_eq =>
      obtain rfl : kind = .symbol .comma := kind_eq
      rw [← Except.ok.inj taken]
      exact ⟨us ++ ⟨.symbol .printWord, place⟩ :: (vs ++ [⟨.symbol .comma, site⟩]), [], by simp,
        ⟨us, _, rfl, around, .comma hargs⟩, .start⟩
    · simpa using spelledBy_afterStatement around (.print hargs) .nil taken
  | ifCondition place context =>
    exact spelledBy_beginExpr (show (Purpose.ifCondition place context).OpenedBy ts _ from h) taken
  | stepped step place slot =>
    obtain ⟨us, rfl, opened⟩ := h
    rw [Mode.take] at taken
    split at taken
    · next x kind_eq =>
      obtain rfl : kind = .name x := kind_eq
      rw [← Except.ok.inj taken]
      simpa [State.SpelledBy] using slot.spelledBy_filled opened .stepBefore
    · simp at taken
  | named x place slot =>
    obtain ⟨us, rfl, opened⟩ := h
    rw [Mode.take] at taken
    split at taken
    · next step found =>
      obtain rfl := step?_eq_some found
      rw [← Except.ok.inj taken]
      simpa [State.SpelledBy] using slot.spelledBy_filled opened .stepAfter
    · next op not_step found =>
      obtain rfl := assignment?_eq_some found
      rw [← Except.ok.inj taken]
      exact ⟨us ++ [⟨.name x, place⟩, ⟨.symbol (assignSymbol op), site⟩], [], by simp,
        ⟨us, site, rfl, opened⟩, .start⟩
    · simp at taken
  | forInit place context =>
    rw [Mode.take] at taken
    split at taken
    · next kind_eq =>
      obtain rfl : kind = .symbol .semicolon := kind_eq
      rw [← Except.ok.inj taken]
      simpa [State.SpelledBy, Mode.SpelledBy] using OpensCondition.mk h .none
    · exact spelledBy_beginSimple (show (Slot.forInit place context).OpenedBy ts from h) taken
  | forCondition init place context =>
    rw [Mode.take] at taken
    split at taken
    · next kind_eq =>
      obtain rfl : kind = .symbol .semicolon := kind_eq
      rw [← Except.ok.inj taken]
      simpa [State.SpelledBy, Mode.SpelledBy] using OpensUpdate.mk h .none
    · exact spelledBy_beginExpr
        (show (Purpose.forCondition init place context).OpenedBy ts _ from h) taken
  | forUpdate init condition place context =>
    rw [Mode.take] at taken
    split at taken
    · next kind_eq =>
      obtain rfl : kind = .symbol .rightParen := kind_eq
      rw [← Except.ok.inj taken]
      simpa [State.SpelledBy, loopBody, Mode.SpelledBy] using OpensUpdate.forBody h .none site
    · exact spelledBy_beginSimple
        (show (Slot.forUpdate init condition place context).OpenedBy ts from h) taken

theorem Purpose.OpenedBy.extend (h : purpose.OpenedBy ts es) (token : Token) :
    purpose.OpenedBy ts (es ++ [token]) := by
  cases purpose with
  | pattern earlier place =>
    obtain ⟨rules, first⟩ := h
    cases es with
    | nil => cases first
    | cons head rest => exact ⟨rules, first⟩
  | _ => exact h

theorem State.spelledBy_take {state : State} (h : state.SpelledBy ts)
    (taken : state.take token = .ok next) : next.SpelledBy (ts ++ [token]) := by
  cases state with
  | between mode => exact Mode.spelledBy_take h taken
  | inExpr state purpose =>
    obtain ⟨us, es, rfl, opened, reached⟩ := h
    rw [State.take] at taken
    split at taken
    · next longer more =>
      rw [← Except.ok.inj taken]
      exact ⟨us, es ++ [token], by simp, opened.extend token, reached.take more⟩
    · next e done =>
      have served := purpose.spelledBy_served opened (reached.take_done done).1
      exact Mode.spelledBy_take served taken
    · simp at taken

/-- What is true of the tokens so far and the state stays true to the end of a run. -/
theorem State.spelledBy_takeAll {state final : State} {rest : List Token} (h : state.SpelledBy ts)
    (taken : state.takeAll rest = .ok final) : final.SpelledBy (ts ++ rest) := by
  induction rest generalizing ts state with
  | nil => simpa [← Except.ok.inj taken] using h
  | cons token rest ih =>
    obtain ⟨next, first, taken⟩ := takeAll_cons_eq_ok taken
    simpa using ih (spelledBy_take h first) taken

end FieldScript.Reader

namespace FieldScript.Stream

/-- The tokens of a program that is parsed spell it: each token is taken once and in order, and each
node is placed at its token. So the tokens without the delimiters are the yield of the program. -/
theorem parse_spelled {tokens : List Token} (no_eof : ∀ token ∈ tokens, token.kind ≠ .eof)
    {program : Program} (h : (ofTokens tokens).parse.1 = .ok program) :
    SpellsProgram tokens program ∧ undelimited (tokens.map Token.kind) = program.yield := by
  have found : Reader.read .start (ofTokens tokens).tokens ⟨.eof, (ofTokens tokens).eof⟩ =
      (.ok program, (ofTokens tokens).parse.2.tokens) := Prod.ext h rfl
  rw [ofTokens_of_no_eof no_eof] at found
  obtain ⟨-, final, taken, complete⟩ := Reader.takeAll_of_read found
  have start : Reader.State.start.SpelledBy [] := SpellsProgram.nil
  have gathered := Reader.State.spelledBy_takeAll start taken
  have spelled : SpellsProgram tokens program := by
    rw [Reader.State.program?.eq_def] at complete
    split at complete
    · next first more =>
      rw [← Option.some.inj complete]
      exact gathered
    · simp at complete
  exact ⟨spelled, spelled.undelimited_eq⟩

/-- The tokens of `a { for (i = 0; ; i++) { if (x) y++; ; else { ; print -$1, 2 } } }`, one to a
column. -/
def loopTokens : List Token :=
  let kinds : List TokenKind :=
    [.name "a", .symbol .leftBrace, .symbol .forWord, .symbol .leftParen, .name "i",
      .symbol .assign, .integer 0, .symbol .semicolon, .symbol .semicolon, .name "i",
      .symbol .plusPlus, .symbol .rightParen, .symbol .leftBrace, .symbol .ifWord,
      .symbol .leftParen, .name "x", .symbol .rightParen, .name "y", .symbol .plusPlus,
      .symbol .semicolon, .symbol .semicolon, .symbol .elseWord, .symbol .leftBrace,
      .symbol .semicolon, .symbol .printWord, .symbol .minus, .symbol .dollar, .integer 1,
      .symbol .comma, .integer 2, .symbol .rightBrace, .symbol .rightBrace, .symbol .rightBrace]
  kinds.zipIdx.map fun (kind, column) => ⟨kind, ⟨1, column + 1⟩⟩

def loopProgram : Program :=
  let args := [Expr.unary .negate (.field (.literal (.int 1) ⟨1, 28⟩) ⟨1, 27⟩) ⟨1, 26⟩,
    .literal (.int 2) ⟨1, 30⟩]
  let body := Stmt.ifElse (.var "x" ⟨1, 16⟩) [.simple (.increment "y" .up .after ⟨1, 18⟩)]
    (some [.block [.print args ⟨1, 25⟩] ⟨1, 23⟩]) ⟨1, 14⟩
  let header : LoopHeader := ⟨some (.assign "i" none (.literal (.int 0) ⟨1, 7⟩) ⟨1, 5⟩), none,
    some (.increment "i" .up .after ⟨1, 10⟩)⟩
  [⟨.eachRecord (some (.var "a" ⟨1, 1⟩)), [.forLoop header [body] ⟨1, 3⟩], ⟨1, 1⟩⟩]

theorem parse_spelled_loop :
    (ofTokens loopTokens).parse.1 = .ok loopProgram ∧ SpellsProgram loopTokens loopProgram ∧
      undelimited (loopTokens.map Token.kind) = loopProgram.yield ∧
      loopProgram.yield =
        [.name "a", .symbol .forWord, .name "i", .symbol .assign, .integer 0, .name "i",
          .symbol .plusPlus, .symbol .ifWord, .name "x", .name "y", .symbol .plusPlus,
          .symbol .elseWord, .symbol .printWord, .symbol .minus, .symbol .dollar, .integer 1,
          .symbol .comma, .integer 2] := by
  have no_eof : ∀ token ∈ loopTokens, token.kind ≠ .eof := by decide +kernel
  have parsed : (ofTokens loopTokens).parse.1 = .ok loopProgram := by rfl
  obtain ⟨spelled, yield_eq⟩ := parse_spelled no_eof parsed
  exact ⟨parsed, spelled, yield_eq, by decide +kernel⟩

end FieldScript.Stream
