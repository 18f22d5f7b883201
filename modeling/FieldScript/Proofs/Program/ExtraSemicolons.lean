import FieldScript.Proofs.Program.Gathered
import FieldScript.Proofs.Program.RoundTrip

/-!
# Extra semicolons

Behind an opening brace, before a closing one and behind every semicolon outside the header of a
loop, a further semicolon leaves the reader in a state that does the same on what comes next. There
it is a statement of its own, or waits with others for an `else`. Main statement: semicolons put in
at such a place leave a program as it is.
-/

namespace FieldScript

namespace ExprReader

variable {state : State} {token : Token}

/-- A token that delimits statements is no part of an expression. -/
theorem State.ne_of_take_more {next : State} (h : state.take token = .more next) :
    token.kind ≠ .symbol .leftBrace ∧ token.kind ≠ .symbol .semicolon ∧
      token.kind ≠ .symbol .rightBrace := by
  refine ⟨fun kind_eq => ?_, fun kind_eq => ?_, fun kind_eq => ?_⟩ <;> cases state with
  | operand signs frames => simp [State.take, takeOperand, kind_eq] at h
  | index place signs frames => simp [State.take, fieldIndex?, kind_eq] at h
  | operator e frames =>
    simp only [State.take, takeOperator, binaryOp?, kind_eq, BinaryOp.ofSymbol?] at h
    split at h <;> simp at h

/-- An expression that one token ends is ended by every token that is no operator. -/
theorem State.take_done_of_done {other : Token} {e : Expr} (h : state.take token = .done e)
    (plain : binaryOp? other = none) : state.take other = .done e := by
  cases state with
  | operand signs frames =>
    rw [State.take] at h
    split at h <;> simp at h
  | index place signs frames =>
    rw [State.take] at h
    split at h <;> simp at h
  | operator d frames =>
    rw [State.take, takeOperator] at h ⊢
    rw [plain]
    split at h
    · simp at h
    · split at h
      · next closed => simpa [closed] using h
      · split at h <;> simp at h

end ExprReader

namespace Reader

variable {context : Context} {slot : Slot} {purpose : Purpose} {token : Token} {next : State}

/-- A context in which statements follow each other, so that one without effect leaves no trace. -/
def Context.Lists (context : Context) : Prop :=
  ∀ token, afterStatement none context token = beginStatement context token

theorem lists_rule (earlier : List Rule) (trigger : Trigger) (place : Location)
    (before : List Stmt) : (Context.rule earlier trigger place before).Lists := by
  intro token
  simp [afterStatement]

theorem lists_block (place : Location) (before : List Stmt) (outer : Context) :
    (Context.block place before outer).Lists := by
  intro token
  simp [afterStatement]

/-- Where the reader stands behind an opening brace or a semicolon: in a list of statements, behind
a statement, or behind a separator of a loop header. -/
def State.Follows (state : State) : TokenKind → Prop
  | .symbol .leftBrace => ∃ context, state = .between (.statement context) ∧ context.Lists
  | .symbol .semicolon =>
    (∃ s context, state = .between (.finished s context)) ∨
    (∃ init place context, state = .between (.forCondition init place context)) ∨
    ∃ init condition place context, state = .between (.forUpdate init condition place context)
  | _ => True

/-- What is expected is no closing brace, and leads to where it should. -/
def Mode.Proper : Mode → Prop
  | expect s next => s ≠ .rightBrace ∧ (State.between next).Follows (.symbol s) ∧ next.Proper
  | _ => True

def State.Proper : State → Prop
  | between mode => mode.Proper
  | inExpr _ _ => True

theorem State.follows_of_ne {state : State} {kind : TokenKind}
    (brace : kind ≠ .symbol .leftBrace) (semicolon : kind ≠ .symbol .semicolon) :
    state.Follows kind := by
  unfold State.Follows
  split
  · exact absurd rfl brace
  · exact absurd rfl semicolon
  · trivial

theorem Slot.proper_filled (s : Simple) (slot : Slot) : (slot.filled s).Proper := by
  cases slot with
  | statement context => trivial
  | forInit place context => exact ⟨by decide, .inr (.inl ⟨_, _, _, rfl⟩), trivial⟩
  | forUpdate init condition place context => exact ⟨by decide, trivial, trivial⟩

theorem Purpose.proper_served (e : Expr) (purpose : Purpose) : (purpose.served e).Proper := by
  cases purpose with
  | pattern earlier place => exact ⟨by decide, ⟨_, rfl, lists_rule _ _ _ _⟩, trivial⟩
  | printArg before place context => trivial
  | assign name op place slot => exact slot.proper_filled _
  | ifCondition place context => exact ⟨by decide, trivial, trivial⟩
  | forCondition init place context => exact ⟨by decide, .inr (.inr ⟨_, _, _, _, rfl⟩), trivial⟩

theorem beginExpr_proper (taken : beginExpr purpose token = .ok next) :
    next.Proper ∧ next.Follows token.kind := by
  rw [beginExpr] at taken
  cases found : ExprReader.takeOperand [] [] token with
  | error wanted => simp [found, Except.map] at taken
  | ok state =>
    have more : ExprReader.State.start.take token = .more state := by
      simp only [ExprReader.State.start, ExprReader.State.take, found]
    obtain ⟨brace, semicolon, -⟩ := ExprReader.State.ne_of_take_more more
    simp only [found, Except.map, Except.ok.injEq] at taken
    rw [← taken]
    exact ⟨trivial, State.follows_of_ne brace semicolon⟩

theorem step?_ne {kind : TokenKind} {step : Step} (h : step? kind = some step) :
    kind ≠ .symbol .leftBrace ∧ kind ≠ .symbol .semicolon := by
  constructor <;> rintro rfl <;> simp [step?] at h

theorem beginSimple_proper (taken : beginSimple slot token = .ok next) :
    next.Proper ∧ next.Follows token.kind := by
  rw [beginSimple] at taken
  split at taken <;> simp only [Except.ok.injEq, reduceCtorEq] at taken
  · next step found =>
    rw [← taken]
    exact ⟨trivial, State.follows_of_ne (step?_ne found).1 (step?_ne found).2⟩
  · next x not_step kind_eq =>
    rw [← taken, kind_eq]
    exact ⟨trivial, trivial⟩

theorem closeBrace_proper (taken : closeBrace context = .ok next) : next.Proper := by
  rw [closeBrace.eq_def] at taken
  split at taken <;> simp only [Except.ok.injEq, reduceCtorEq] at taken
  · rw [← taken]
    trivial
  · rw [← taken]
    trivial

theorem beginStatement_proper (taken : beginStatement context token = .ok next) :
    next.Proper ∧ next.Follows token.kind := by
  rw [beginStatement] at taken
  split at taken <;> try simp only [Except.ok.injEq, reduceCtorEq] at taken
  · next kind_eq =>
    rw [← taken, kind_eq]
    exact ⟨trivial, .inl ⟨none, context, rfl⟩⟩
  · next kind_eq =>
    rw [← taken, kind_eq]
    exact ⟨trivial, _, rfl, lists_block _ _ _⟩
  · next kind_eq =>
    rw [kind_eq]
    exact ⟨closeBrace_proper taken, trivial⟩
  · next kind_eq =>
    rw [← taken, kind_eq]
    exact ⟨⟨by decide, trivial, trivial⟩, trivial⟩
  · next kind_eq =>
    rw [← taken, kind_eq]
    exact ⟨⟨by decide, trivial, trivial⟩, trivial⟩
  · next kind_eq =>
    rw [← taken, kind_eq]
    exact ⟨⟨by decide, .inl ⟨_, context, rfl⟩, trivial⟩, trivial⟩
  · next kind_eq =>
    rw [← taken, kind_eq]
    exact ⟨trivial, trivial⟩
  all_goals exact beginSimple_proper taken

theorem afterStatement_proper {s : Option Stmt}
    (taken : afterStatement s context token = .ok next) :
    next.Proper ∧ next.Follows token.kind := by
  induction context generalizing s with
  | rule => exact beginStatement_proper taken
  | block => exact beginStatement_proper taken
  | thenBranch condition place outer ih =>
    rw [afterStatement] at taken
    split at taken
    · next kind_eq =>
      rw [← Except.ok.inj taken, kind_eq]
      exact ⟨trivial, .inl ⟨s, _, rfl⟩⟩
    · next kind_eq =>
      rw [← Except.ok.inj taken, kind_eq]
      exact ⟨trivial, trivial⟩
    · exact ih taken
  | elseBranch condition branch place outer ih => exact ih taken
  | forBody header place outer ih => exact ih taken

theorem beginRule_proper {earlier : List Rule} (taken : beginRule earlier token = .ok next) :
    next.Proper ∧ next.Follows token.kind := by
  rw [beginRule] at taken
  split at taken <;> try simp only [Except.ok.injEq] at taken
  · next kind_eq =>
    rw [← taken, kind_eq]
    exact ⟨⟨by decide, ⟨_, rfl, lists_rule _ _ _ _⟩, trivial⟩, trivial⟩
  · next kind_eq =>
    rw [← taken, kind_eq]
    exact ⟨⟨by decide, ⟨_, rfl, lists_rule _ _ _ _⟩, trivial⟩, trivial⟩
  · next kind_eq =>
    rw [← taken, kind_eq]
    exact ⟨trivial, _, rfl, lists_rule _ _ _ _⟩
  · exact beginExpr_proper taken

theorem Mode.take_proper {mode : Mode} (proper : mode.Proper) (taken : mode.take token = .ok next) :
    next.Proper ∧ next.Follows token.kind := by
  cases mode with
  | rules earlier => exact beginRule_proper taken
  | expect s mode =>
    rw [Mode.take] at taken
    split at taken
    · next kind_eq =>
      rw [← Except.ok.inj taken, kind_eq]
      exact ⟨proper.2.2, proper.2.1⟩
    · simp at taken
  | statement context => exact beginStatement_proper taken
  | finished s context => exact afterStatement_proper taken
  | printed args place context =>
    rw [Mode.take] at taken
    split at taken
    · next kind_eq =>
      rw [← Except.ok.inj taken, kind_eq]
      exact ⟨trivial, trivial⟩
    · exact afterStatement_proper taken
  | ifCondition place context => exact beginExpr_proper taken
  | stepped step place slot =>
    rw [Mode.take] at taken
    split at taken
    · next x kind_eq =>
      rw [← Except.ok.inj taken, kind_eq]
      exact ⟨slot.proper_filled _, trivial⟩
    · simp at taken
  | named x place slot =>
    rw [Mode.take] at taken
    split at taken
    · next step found =>
      rw [← Except.ok.inj taken]
      exact ⟨slot.proper_filled _, State.follows_of_ne (step?_ne found).1 (step?_ne found).2⟩
    · next op not_step found =>
      rw [← Except.ok.inj taken, assignment?_eq_some found]
      refine ⟨trivial, ?_⟩
      rcases op with _ | op
      · trivial
      · cases op <;> trivial
    · simp at taken
  | forInit place context =>
    rw [Mode.take] at taken
    split at taken
    · next kind_eq =>
      rw [← Except.ok.inj taken, kind_eq]
      exact ⟨trivial, .inr (.inl ⟨none, place, context, rfl⟩)⟩
    · exact beginSimple_proper taken
  | forCondition init place context =>
    rw [Mode.take] at taken
    split at taken
    · next kind_eq =>
      rw [← Except.ok.inj taken, kind_eq]
      exact ⟨trivial, .inr (.inr ⟨init, none, place, context, rfl⟩)⟩
    · exact beginExpr_proper taken
  | forUpdate init condition place context =>
    rw [Mode.take] at taken
    split at taken
    · next kind_eq =>
      rw [← Except.ok.inj taken, kind_eq]
      exact ⟨trivial, trivial⟩
    · exact beginSimple_proper taken

/-- Every token that is right keeps the state proper and leads to where it should. -/
theorem State.take_proper {state : State} (proper : state.Proper)
    (taken : state.take token = .ok next) : next.Proper ∧ next.Follows token.kind := by
  cases state with
  | between mode => exact Mode.take_proper proper taken
  | inExpr state purpose =>
    rw [State.take] at taken
    split at taken
    · next longer more =>
      obtain ⟨brace, semicolon, -⟩ := ExprReader.State.ne_of_take_more more
      rw [← Except.ok.inj taken]
      exact ⟨trivial, State.follows_of_ne brace semicolon⟩
    · exact Mode.take_proper (purpose.proper_served _) taken
    · simp at taken

/-- A semicolon before this token leaves the reader behind a statement, where the token does what it
would have done without. -/
def State.Skips (state : State) (behind : Token) : Prop :=
  ∀ semicolon : Token, semicolon.kind = .symbol .semicolon →
    ∃ s context, state.take semicolon = .ok (.between (.finished s context)) ∧
      afterStatement s context behind = state.take behind

theorem skips_finished (s : Option Stmt) (context : Context) (behind : Token) :
    (State.between (.finished s context)).Skips behind := by
  intro semicolon kind_eq
  obtain ⟨inner, around, taken, same⟩ := afterStatement_semicolon s context kind_eq
  exact ⟨inner, around, taken, same behind⟩

theorem skips_statement (lists : context.Lists) (behind : Token) :
    (State.between (.statement context)).Skips behind := by
  intro semicolon kind_eq
  refine ⟨none, context, ?_, lists behind⟩
  rw [State.take, Mode.take, beginStatement, kind_eq]

theorem State.Skips.takeAll {state : State} {behind : Token} (skips : state.Skips behind)
    {gap : List Token} (semicolons : Semicolons gap) (rest : List Token) :
    state.takeAll (gap ++ behind :: rest) = state.takeAll (behind :: rest) := by
  induction gap generalizing state with
  | nil => rfl
  | cons semicolon gap ih =>
    rcases skips semicolon (semicolons semicolon List.mem_cons_self) with
      ⟨s, context, taken, same⟩
    have later : Semicolons gap := fun token member =>
      semicolons token (List.mem_cons_of_mem _ member)
    calc
      state.takeAll (semicolon :: gap ++ behind :: rest) =
          (State.between (.finished s context)).takeAll (gap ++ behind :: rest) :=
        State.takeAll_cons _ taken
      _ = (State.between (.finished s context)).takeAll (behind :: rest) :=
        ih (skips_finished s context behind) later
      _ = state.takeAll (behind :: rest) := by
        rw [State.takeAll, State.takeAll, ← same]
        rfl

/-- Where a closing brace is right, a semicolon before it is too. -/
theorem Mode.skips_rightBrace {mode : Mode} (proper : mode.Proper)
    (brace : token.kind = .symbol .rightBrace) (taken : mode.take token = .ok next) :
    (State.between mode).Skips token := by
  cases mode with
  | rules earlier =>
    simp [Mode.take, beginRule, beginExpr, ExprReader.takeOperand, brace, Except.map] at taken
  | expect s mode =>
    have wrong : Symbol.rightBrace ≠ s := proper.1.symm
    simp [Mode.take, brace, wrong] at taken
  | statement context =>
    simp only [Mode.take, beginStatement, brace] at taken
    cases context with
    | rule earlier trigger place before => exact skips_statement (lists_rule _ _ _ _) token
    | block place before outer => exact skips_statement (lists_block _ _ _) token
    | _ => simp [closeBrace] at taken
  | finished s context => exact skips_finished s context token
  | printed args place context =>
    have printed_take {t : Token} (plain : t.kind ≠ .symbol .comma) :
        (State.between (.printed args place context)).take t =
          afterStatement (some (.print args place)) context t := by
      rw [State.take, Mode.take, if_neg plain]
    intro semicolon kind_eq
    rw [printed_take (by simp [kind_eq]), printed_take (by simp [brace])]
    exact skips_finished (some (.print args place)) context token semicolon kind_eq
  | ifCondition place context =>
    simp [Mode.take, beginExpr, ExprReader.takeOperand, brace, Except.map] at taken
  | stepped step place slot => simp [Mode.take, brace] at taken
  | named x place slot => simp [Mode.take, step?, assignment?, brace] at taken
  | forInit place context => simp [Mode.take, beginSimple, step?, brace] at taken
  | forCondition init place context =>
    simp [Mode.take, beginExpr, ExprReader.takeOperand, brace, Except.map] at taken
  | forUpdate init condition place context => simp [Mode.take, beginSimple, step?, brace] at taken

theorem State.skips_rightBrace {state : State} (proper : state.Proper)
    (brace : token.kind = .symbol .rightBrace) (taken : state.take token = .ok next) :
    state.Skips token := by
  cases state with
  | between mode => exact Mode.skips_rightBrace proper brace taken
  | inExpr state purpose =>
    cases ended : state.take token with
    | more longer => exact absurd brace (ExprReader.State.ne_of_take_more ended).2.2
    | done e =>
      rw [take_inExpr_done purpose ended] at taken
      intro semicolon kind_eq
      have plain : ExprReader.binaryOp? semicolon = none := by
        simp [ExprReader.binaryOp?, kind_eq, BinaryOp.ofSymbol?]
      rw [take_inExpr_done purpose ended,
        take_inExpr_done purpose (ExprReader.State.take_done_of_done ended plain)]
      exact Mode.skips_rightBrace (purpose.proper_served e) brace taken semicolon kind_eq
    | wrong wanted => simp [State.take, ended] at taken

theorem not_skips_rules (rules : List Rule) (behind : Token) :
    ¬(State.between (.rules rules)).Skips behind := by
  intro skips
  obtain ⟨s, context, taken, -⟩ := skips ⟨.symbol .semicolon, .start⟩ rfl
  simp [State.take, Mode.take, beginRule, beginExpr, ExprReader.takeOperand, Except.map] at taken

end Reader

/-- Tokens up to one of the two semicolons that separate the parts in the header of a `for`. -/
inductive EndsInHeader : List Token → Prop where
  | first {front is : List Token} {init : Option Simple} {place left first : Location}
    (no_eof : ∀ token ∈ front, token.kind ≠ .eof) (hi : SpellsOptional SpellsSimple is init) :
    EndsInHeader (front ++ [⟨.symbol .forWord, place⟩, ⟨.symbol .leftParen, left⟩] ++ is ++
      [⟨.symbol .semicolon, first⟩])
  | second {front is cs : List Token} {init : Option Simple} {condition : Option Expr}
    {place left first second : Location} (no_eof : ∀ token ∈ front, token.kind ≠ .eof)
    (hi : SpellsOptional SpellsSimple is init) (hc : SpellsOptional (Spells 1) cs condition) :
    EndsInHeader (front ++ [⟨.symbol .forWord, place⟩, ⟨.symbol .leftParen, left⟩] ++ is ++
      [⟨.symbol .semicolon, first⟩] ++ cs ++ [⟨.symbol .semicolon, second⟩])

theorem not_endsInHeader {ts : List Token} (h : ∀ token ∈ ts, token.kind ≠ .symbol .forWord) :
    ¬EndsInHeader ts := by
  intro ends
  cases ends with
  | @first _ _ _ place => exact h ⟨.symbol .forWord, place⟩ (by simp) rfl
  | @second _ _ _ _ _ place => exact h ⟨.symbol .forWord, place⟩ (by simp) rfl

/-- A place between tokens, given by those on either side, where statements may be empty. -/
inductive SemicolonSite : List Token → List Token → Prop where
  | behindBrace {before after : List Token} {place : Location} :
    SemicolonSite (before ++ [⟨.symbol .leftBrace, place⟩]) after
  | beforeBrace {before after : List Token} {place : Location} :
    SemicolonSite before (⟨.symbol .rightBrace, place⟩ :: after)
  | behindSemicolon {before after : List Token} {place : Location}
    (outside : ¬EndsInHeader (before ++ [⟨.symbol .semicolon, place⟩])) :
    SemicolonSite (before ++ [⟨.symbol .semicolon, place⟩]) after

namespace Reader

variable {before : List Token}

/-- Outside loop headers a semicolon leaves the reader behind a statement. -/
theorem State.Follows.finished {state : State} (follows : state.Follows (.symbol .semicolon))
    (spelled : state.SpelledBy before) (no_eof : ∀ token ∈ before, token.kind ≠ .eof)
    (outside : ¬EndsInHeader before) : ∃ s context, state = .between (.finished s context) := by
  rcases follows with finished | ⟨init, place, context, rfl⟩ |
    ⟨init, condition, place, context, rfl⟩
  · exact finished
  · obtain ⟨⟨around⟩, hi⟩ := spelled
    exact absurd (.first (fun token member => no_eof token (by simp [member])) hi) outside
  · obtain ⟨⟨⟨around⟩, hi⟩, hc⟩ := spelled
    exact absurd (.second (fun token member => no_eof token (by simp [member])) hi hc) outside

theorem State.proper_start : State.start.Proper := trivial

theorem State.proper_takeAll {state final : State} {ts : List Token} (proper : state.Proper)
    (taken : state.takeAll ts = .ok final) : final.Proper :=
  State.takeAll_invariant (fun proper taken => (State.take_proper proper taken).1) proper taken

/-- The last token taken tells where the reader stands. -/
theorem State.follows_takeAll {final : State} {ts : List Token} {last : Token}
    (taken : State.start.takeAll (ts ++ [last]) = .ok final) : final.Follows last.kind := by
  obtain ⟨mid, earlier, taken⟩ := takeAll_append_eq_ok taken
  obtain ⟨next, taken, rest⟩ := takeAll_cons_eq_ok taken
  rw [← Except.ok.inj rest]
  exact (take_proper (proper_takeAll proper_start earlier) taken).2

theorem skips_of_site {after : List Token} {mid : State} {rules : List Rule}
    (site : SemicolonSite before after) (no_eof : ∀ token ∈ before, token.kind ≠ .eof)
    (taken : State.start.takeAll before = .ok mid)
    (rest : mid.takeAll after = .ok (.between (.rules rules))) :
    ∃ behind more, after = behind :: more ∧ mid.Skips behind := by
  -- The script does not end at the site, since the reader is not between rules there.
  have goes_on (skips : ∀ behind, mid.Skips behind) :
      ∃ behind more, after = behind :: more ∧ mid.Skips behind := by
    cases after with
    | nil =>
      obtain rfl := Except.ok.inj rest
      exact absurd (skips ⟨.eof, .start⟩) (not_skips_rules rules _)
    | cons behind more => exact ⟨behind, more, rfl, skips behind⟩
  cases site with
  | behindBrace =>
    obtain ⟨context, rfl, lists⟩ := State.follows_takeAll taken
    exact goes_on (skips_statement lists)
  | @beforeBrace _ more place =>
    obtain ⟨next, closed, -⟩ := State.takeAll_cons_eq_ok rest
    have proper := State.proper_takeAll State.proper_start taken
    exact ⟨_, more, rfl, State.skips_rightBrace proper rfl closed⟩
  | behindSemicolon outside =>
    have start : State.start.SpelledBy [] := SpellsProgram.nil
    have spelled := State.spelledBy_takeAll start taken
    obtain ⟨s, context, rfl⟩ := (State.follows_takeAll taken).finished spelled no_eof outside
    exact goes_on (skips_finished s context)

end Reader

/-- A site for semicolons is one as well when the tokens stop at the end of the script. -/
theorem SemicolonSite.ofTokens {before after : List Token}
    (site : SemicolonSite before after) :
    SemicolonSite before (Stream.ofTokens after).tokens := by
  cases site with
  | behindBrace => exact .behindBrace
  | beforeBrace =>
    rw [Stream.ofTokens]
    exact .beforeBrace
  | behindSemicolon outside => exact .behindSemicolon outside

namespace Stream

open Reader

variable {before gap after : List Token}

/-- Extra semicolons behind an opening brace, before a closing one or behind a semicolon that
separates no parts of a loop header, however many there are, leave a program as it is. -/
theorem parse_extra_semicolons (site : SemicolonSite before after) (semicolons : Semicolons gap)
    {program : Program} (accepted : (ofTokens (before ++ after)).parse.1 = .ok program) :
    (ofTokens (before ++ gap ++ after)).parse.1 = .ok program := by
  rcases no_eof_or_first before with no_eof | ⟨front, eof, back, rfl, at_end, front_ne⟩
  · have gap_ne : ∀ token ∈ gap, token.kind ≠ .eof := fun token member => by
      simp [semicolons token member]
    rw [parse_eq_ok_iff] at accepted ⊢
    obtain ⟨taken, some_rule⟩ := accepted
    rw [ofTokens_append no_eof] at taken
    obtain ⟨mid, earlier, rest⟩ := State.takeAll_append_eq_ok taken
    obtain ⟨behind, more, after_eq, skips⟩ := skips_of_site site.ofTokens no_eof earlier rest
    refine ⟨?_, some_rule⟩
    rw [List.append_assoc, ofTokens_append no_eof, ofTokens_append gap_ne,
      State.takeAll_append _ earlier, after_eq, skips.takeAll semicolons more, ← after_eq, rest]
  · -- The reader does not get to the site.
    have same (more : List Token) :
        ofTokens (front ++ eof :: back ++ more) = ⟨front, eof.place⟩ := by
      rw [List.append_assoc, List.cons_append, ofTokens_append_eof front_ne at_end]
    rw [List.append_assoc, same, ← same after]
    exact accepted

/-- The tokens of an open rule with `if (a) if (b) break`. -/
def openBranch : List Token :=
  let kinds : List TokenKind :=
    [.symbol .leftBrace, .symbol .ifWord, .symbol .leftParen, .name "a", .symbol .rightParen,
      .symbol .ifWord, .symbol .leftParen, .name "b", .symbol .rightParen, .symbol .breakWord]
  kinds.zipIdx.map fun (kind, column) => ⟨kind, ⟨1, column + 1⟩⟩

/-- The tokens of `else for (;;) x++` and the closing brace. -/
def otherBranch : List Token :=
  let kinds : List TokenKind :=
    [.symbol .elseWord, .symbol .forWord, .symbol .leftParen, .symbol .semicolon,
      .symbol .semicolon, .symbol .rightParen, .name "x", .symbol .plusPlus, .symbol .rightBrace]
  kinds.zipIdx.map fun (kind, column) => ⟨kind, ⟨2, column + 1⟩⟩

/-- The inner `if` takes the `else` across the semicolons. -/
theorem parse_extra_semicolons_before_else :
    let before := openBranch ++ [⟨.symbol .semicolon, ⟨1, 11⟩⟩]
    let gap : List Token := [⟨.symbol .semicolon, ⟨7, 7⟩⟩, ⟨.symbol .semicolon, ⟨7, 7⟩⟩]
    let inner := Stmt.ifElse (.var "b" ⟨1, 8⟩) [.breakLoop ⟨1, 10⟩] (some [.forLoop
      ⟨none, none, none⟩ [.simple (.increment "x" .up .after ⟨2, 7⟩)] ⟨2, 2⟩]) ⟨1, 6⟩
    let program : Program :=
      [⟨.eachRecord none, [.ifElse (.var "a" ⟨1, 4⟩) [inner] none ⟨1, 2⟩], ⟨1, 1⟩⟩]
    SemicolonSite before otherBranch ∧ Semicolons gap ∧
      (ofTokens (before ++ otherBranch)).parse.1 = .ok program ∧
      (ofTokens (before ++ gap ++ otherBranch)).parse.1 = .ok program := by
  intro before gap inner program
  have site : SemicolonSite before otherBranch :=
    .behindSemicolon (not_endsInHeader (by decide +kernel))
  have semicolons : Semicolons gap := by simp [Semicolons, gap]
  have accepted : (ofTokens (before ++ otherBranch)).parse.1 = .ok program := by rfl
  exact ⟨site, semicolons, accepted, parse_extra_semicolons site semicolons accepted⟩

end Stream

end FieldScript
