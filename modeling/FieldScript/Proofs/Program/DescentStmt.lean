import FieldScript.Proofs.Program.DescentExpr
import FieldScript.Proofs.Program.RoundTrip

/-!
# Statements and rules by descent

Behind the branch of an `if` a parser by descent decides at once whether there is an `else`, where
the reader waits for it. If there is none the cursor goes back over the semicolons, and the reader
does the same on them whether it still waits or has finished the `if`. So the parsers of statements
and rules follow the reader of programs.
-/

namespace FieldScript

open Reader (State Slot Purpose Context Mode afterStatement beginStatement beginSimple beginExpr
  closeBrace Gathers)

namespace Descent

variable {α β : Type} {script : Script} {c : Cursor} {state mid : State} {context : Context}
  {next : α → State} {Q : α → Cursor → Prop} {fuel : Nat}

theorem Follows.acceptStep {f : Option Step → Parser α}
    (yes : ∀ step, Reader.step? (script.token c.position).kind = some step →
      ∃ mid, state.take (script.token c.position) = .ok mid ∧
        Follows script (f (some step)) (c.moveTo (c.position + 1)) mid next Q)
    (no : Reader.step? (script.token c.position).kind = none →
      Follows script (f none) c state next Q) :
    Follows script (Descent.acceptStep >>= f) c state next Q := by
  rw [Descent.acceptStep, bind_assoc]
  apply accept
  · intro kind_eq
    exact yes .up (by rw [kind_eq]; rfl)
  · intro not_up
    rw [if_neg Bool.false_ne_true, bind_assoc]
    apply accept
    · intro kind_eq
      exact yes .down (by rw [kind_eq]; rfl)
    · intro not_down
      apply no
      rw [Reader.step?.eq_def]
      split
      · next kind_eq => exact absurd kind_eq not_up
      · next kind_eq => exact absurd kind_eq not_down
      · rfl

theorem take_start (purpose : Purpose) (token : Token) :
    (State.inExpr .start purpose).take token = beginExpr purpose token := by
  rw [beginExpr, State.take, ExprReader.State.start, ExprReader.State.take]
  cases ExprReader.takeOperand [] [] token <;> rfl

theorem parseExpr_follows_of_begin (purpose : Purpose) (incomplete : state.program? = none)
    (enough : script.last < c.position + fuel)
    (begins : state.take (script.token c.position) =
      beginExpr purpose (script.token c.position)) :
    Follows script (parseExpr fuel) c state (fun e => .between (purpose.served e))
      fun _ d => c.position < d.position := by
  apply (parseExpr_follows enough purpose).of_take (.inExpr .start purpose) incomplete rfl
  rw [begins, take_start]

theorem parseUpdate_follows {x : String} {place : Location} {slot : Slot}
    (enough : script.last ≤ c.position + fuel) :
    Follows script (parseUpdate fuel x place) c (.between (.named x place slot))
      (fun s => .between (slot.filled s)) fun _ d => c.position ≤ d.position := by
  rw [parseUpdate]
  apply Follows.acceptStep
  · intro step found
    refine ⟨.between (slot.filled (.increment x step .after place)), ?_, ?_⟩
    · rw [State.take, Mode.take, found]
    · exact .pure rfl (Nat.le_succ _)
  · intro no_step
    apply Follows.look
    split
    · next op found =>
      apply Follows.advance
      · rw [State.take, Mode.take, no_step, found]
      · have further : script.last < c.position + 1 + fuel := by omega
        apply (parseExpr_follows further (.assign x op place slot)).bind
        intro e d goes lt
        exact .pure rfl (Nat.le_of_lt (Nat.lt_trans (Nat.lt_succ_self _) lt))
    · next not_found =>
      apply Follows.fail rfl
      rw [State.take, Mode.take, no_step, not_found]

/-- An assignment or an increment, wherever it may stand. -/
theorem parseSimple_follows (slot : Slot) (incomplete : state.program? = none)
    (enough : script.last ≤ c.position + fuel)
    (begins : state.take (script.token c.position) = beginSimple slot (script.token c.position)) :
    Follows script (parseSimple fuel) c state (fun s => .between (slot.filled s))
      fun _ d => c.position < d.position := by
  rw [parseSimple]
  apply Follows.look
  apply Follows.acceptStep
  · intro step found
    refine ⟨.between (.stepped step (script.token c.position).place slot), ?_, ?_⟩
    · rw [begins, beginSimple, found]
    · apply Follows.expectName rfl
      · intro x kind_eq
        refine ⟨.between (slot.filled (.increment x step .before (script.token c.position).place)),
          ?_, ?_⟩
        · simp only [State.take, Mode.take, kind_eq]
        · exact .pure rfl (Nat.lt_succ_of_lt (Nat.lt_succ_self _))
      · intro no_name
        rw [State.take, Mode.take]
        split
        · next x kind_eq => exact absurd kind_eq (no_name x)
        · rfl
  · intro no_step
    apply Follows.expectName incomplete
    · intro x kind_eq
      refine ⟨.between (.named x (script.token c.position).place slot), ?_, ?_⟩
      · rw [begins, beginSimple, no_step, kind_eq]
      · have further : script.last ≤ c.position + 1 + fuel := by omega
        exact (parseUpdate_follows further).mono fun _ _ _ le => le
    · intro no_name
      rw [begins, beginSimple, no_step]
      split
      · next step found => cases found
      · next x _ kind_eq => exact absurd kind_eq (no_name x)
      · rfl

theorem parseArgs_follows {c : Cursor} {before : List Expr} {place : Location}
    (enough : script.last < c.position + fuel) :
    Follows script (parseArgs fuel before) c (.between (.printed before place context))
      (fun args => .between (.printed args place context))
      fun _ d => (script.token d.position).kind ≠ .symbol .comma := by
  induction fuel generalizing c before with
  | zero => exact .of_past enough
  | succ fuel ih =>
    rw [parseArgs]
    apply Follows.accept
    · intro kind_eq
      refine ⟨.inExpr .start (.printArg before place context), ?_, ?_⟩
      · rw [State.take, Mode.take, if_pos kind_eq]
      · have further : script.last < c.position + 1 + fuel := by omega
        apply (parseExpr_follows further _).bind
        intro e d goes lt
        have forward : c.position + 1 < d.position := lt
        exact ih (by omega)
    · intro no_comma
      exact .pure rfl no_comma

theorem parsePrint_follows (enough : script.last ≤ c.position + fuel)
    (kind_eq : (script.token c.position).kind = .symbol .printWord) :
    Follows script (parsePrint fuel (script.token c.position).place) c
      (.between (.statement context)) (fun s => .between (.finished (some s) context))
      fun _ d => c.position < d.position := by
  rw [parsePrint]
  apply Follows.expect
  · intro _
    refine ⟨.inExpr .start (.printArg [] (script.token c.position).place context), ?_, ?_⟩
    · rw [State.take, Mode.take, beginStatement, kind_eq]
    · have further : script.last < c.position + 1 + fuel := by omega
      apply (parseExpr_follows further _).bind
      intro first d goes lt
      have begun : c.position + 1 < d.position := lt
      apply (parseArgs_follows (by omega)).bind
      intro args d' goes' no_comma
      have forward := goes'.forward
      apply Follows.of_take
        (.between (.finished (some (.print args (script.token c.position).place)) context)) rfl rfl
      · rw [State.take, Mode.take, if_neg no_comma]
        rfl
      · exact .pure rfl (by omega)
  · exact fun other => absurd kind_eq other

theorem Follows.parseUnless {s : Symbol} {part : Parser β} {f : Option β → Parser α}
    (absent : (script.token c.position).kind = .symbol s → Follows script (f none) c state next Q)
    (present : (script.token c.position).kind ≠ .symbol s →
      Follows script (part >>= fun b => f (some b)) c state next Q) :
    Follows script (Descent.parseUnless s part >>= f) c state next Q := by
  rw [Descent.parseUnless, bind_assoc]
  apply check
  by_cases at_once : (script.token c.position).kind = .symbol s
  · rw [decide_eq_true at_once, if_pos rfl, pure_bind]
    exact absent at_once
  · rw [decide_eq_false at_once, if_neg Bool.false_ne_true, bind_assoc]
    simpa only [pure_bind] using present at_once

theorem parseUpTo_follows {s : Symbol} {part : Parser β} {mode : Option β → Mode}
    (absent : (script.token c.position).kind = .symbol s →
      state.take (script.token c.position) = .ok (.between (mode none)))
    (present : (script.token c.position).kind ≠ .symbol s →
      Follows script part c state (fun b => .between (.expect s (mode (some b))))
        fun _ d => c.position < d.position) :
    Follows script (parseUpTo s part) c state (fun b => .between (mode b))
      fun _ d => c.position < d.position := by
  rw [parseUpTo]
  apply Follows.parseUnless
  · intro at_once
    apply Follows.expect
    · exact fun _ => ⟨_, absent at_once, .pure rfl (Nat.lt_succ_self _)⟩
    · exact fun other => absurd at_once other
  · intro other
    apply (present other).bind
    intro b d goes lt
    apply Follows.expectNext
    exact .pure rfl (Nat.lt_succ_of_lt lt)

section Header

variable {place : Location} {init : Option Simple} {condition : Option Expr}

theorem parseInit_follows (enough : script.last ≤ c.position + fuel) :
    Follows script (parseUpTo .semicolon (parseSimple fuel)) c (.between (.forInit place context))
      (fun init => .between (.forCondition init place context))
      fun _ d => c.position < d.position := by
  apply parseUpTo_follows
  · intro at_once
    rw [State.take, Mode.take, if_pos at_once]
  · intro other
    apply parseSimple_follows (.forInit place context) rfl enough
    rw [State.take, Mode.take, if_neg other]

theorem parseCondition_follows (enough : script.last < c.position + fuel) :
    Follows script (parseUpTo .semicolon (parseExpr fuel)) c
      (.between (.forCondition init place context))
      (fun condition => .between (.forUpdate init condition place context))
      fun _ d => c.position < d.position := by
  apply parseUpTo_follows
  · intro at_once
    rw [State.take, Mode.take, if_pos at_once]
  · intro other
    apply parseExpr_follows_of_begin (.forCondition init place context) rfl enough
    rw [State.take, Mode.take, if_neg other]

theorem parseStep_follows (enough : script.last ≤ c.position + fuel) :
    Follows script (parseUpTo .rightParen (parseSimple fuel)) c
      (.between (.forUpdate init condition place context))
      (fun update => .between (Reader.loopBody init condition update place context))
      fun _ d => c.position < d.position := by
  apply parseUpTo_follows
  · intro at_once
    rw [State.take, Mode.take, if_pos at_once]
  · intro other
    apply parseSimple_follows (.forUpdate init condition place context) rfl enough
    rw [State.take, Mode.take, if_neg other]

theorem parseHeader_follows (enough : script.last ≤ c.position + fuel) :
    Follows script (parseHeader fuel) c (.between (.expect .leftParen (.forInit place context)))
      (fun header => .between (.statement (.forBody header place context)))
      fun _ d => c.position < d.position := by
  rw [parseHeader]
  apply Follows.expectNext
  have further : script.last ≤ c.position + 1 + fuel := by omega
  apply (parseInit_follows further).bind
  intro init d goes begun
  have begun : c.position + 1 < d.position := begun
  apply (parseCondition_follows (by omega)).bind
  intro condition d' goes' forward
  apply (parseStep_follows (by omega)).bind
  intro update d'' goes'' closed
  exact .pure rfl (by omega)

end Header

/-- Semicolons leave the reader behind the same statement, and the cursor before another token. -/
theorem run_skipSemicolons {c : Cursor} (enough : script.last < c.position + fuel)
    (le : c.position ≤ script.last) :
    ∃ d, (∀ behind,
        skipSemicolons fuel (script.tokens ++ script.eof :: behind) c = some (.ok (), d)) ∧
      c.Goes script.last d ∧ (script.token d.position).kind ≠ .symbol .semicolon ∧
      ∀ s context, script.reading (.between (.finished s context)) c.position =
        script.reading (.between (.finished s context)) d.position := by
  induction fuel generalizing c with
  | zero => exact absurd le (Nat.not_le.mpr enough)
  | succ fuel ih =>
    by_cases semicolon : (script.token c.position).kind = .symbol .semicolon
    · have lt : c.position < script.last := script.lt_last le (by rw [semicolon]; nofun)
      have further : script.last < c.position + 1 + fuel := by omega
      obtain ⟨d, runs, goes, other, same⟩ := @ih (c.moveTo (c.position + 1)) further lt
      refine ⟨d, fun behind => ?_, .trans (.step lt) goes, other, fun s context => ?_⟩
      · rw [skipSemicolons, run_bind, run_accept_of_eq le semicolon]
        exact runs behind
      · obtain ⟨inner, around, taken, alike⟩ :=
          Reader.afterStatement_semicolon s context semicolon
        have taken : (State.between (.finished s context)).take (script.token c.position) =
          .ok (.between (.finished inner around)) := taken
        calc
          script.reading (.between (.finished s context)) c.position =
              script.reading (.between (.finished inner around)) (c.position + 1) :=
            script.reading_of_take le taken
          _ = script.reading (.between (.finished s context)) (c.position + 1) :=
            script.reading_congr lt rfl rfl (alike _)
          _ = script.reading (.between (.finished s context)) d.position := same s context
    · refine ⟨c, fun behind => ?_, .refl le, semicolon, fun _ _ => rfl⟩
      rw [skipSemicolons, run_bind, run_accept_of_ne le semicolon]
      rfl

theorem acceptElse_follows {condition : Expr} {place : Location} {branch : Option Stmt}
    (enough : script.last < c.position + fuel) :
    Follows script (acceptElse fuel) c
      (.between (.finished branch (.thenBranch condition place context)))
      (fun found => .between (if found then
          .statement (.elseBranch condition branch.toList place context)
        else .finished (some (.ifElse condition branch.toList none place)) context))
      fun _ _ => True := by
  intro le
  obtain ⟨d, runs, goes, no_semicolon, same⟩ := run_skipSemicolons enough le
  have run_eq (behind : List Token) :
      acceptElse fuel (script.tokens ++ script.eof :: behind) c =
        (accept .elseWord >>= fun found => if found = true then pure true else do
          modify fun cursor => cursor.moveTo c.position
          pure false) (script.tokens ++ script.eof :: behind) d := by
    rw [acceptElse]
    change (skipSemicolons fuel >>= _) _ c = _
    rw [run_bind, runs]
    rfl
  have before := same branch (.thenBranch condition place context)
  by_cases found : (script.token d.position).kind = .symbol .elseWord
  · have taken : (State.between (.finished branch (.thenBranch condition place context))).take
        (script.token d.position) =
        .ok (.between (.statement (.elseBranch condition branch.toList place context))) := by
      simp only [State.take, Mode.take, afterStatement, found]
    refine ⟨.ok true, d.moveTo (d.position + 1), fun behind => ?_,
      goes.trans (.step (script.lt_of_take goes.le_last taken)), .ok ?_ trivial⟩
    · rw [run_eq, run_bind, run_accept_of_eq goes.le_last found]
      rfl
    · exact before.trans (script.reading_of_take goes.le_last taken)
  · have finished := same (some (.ifElse condition branch.toList none place)) context
    refine ⟨.ok false, d.moveTo c.position, fun behind => ?_, goes.back, .ok ?_ trivial⟩
    · rw [run_eq, run_bind, run_accept_of_ne goes.le_last found]
      rfl
    · calc
        _ = script.reading (.between (.finished branch (.thenBranch condition place context)))
            d.position := before
        _ = script.reading (.between (.finished (some _) context)) d.position := by
          apply script.reading_congr goes.le_last rfl rfl
          rw [State.take, Mode.take, afterStatement]
          split
          · next kind_eq => exact absurd kind_eq no_semicolon
          · next kind_eq => exact absurd kind_eq found
          · rfl
        _ = _ := finished.symm

/-- A parser of statements follows the reader, unless a brace closes what the statement is in. -/
def FollowsStatement (script : Script) (p : Parser (Option Stmt)) (c : Cursor) : Prop :=
  ∀ context, ((script.token c.position).kind = .symbol .rightBrace →
      closeBrace context = .error .other) →
    Follows script p c (.between (.statement context))
      (fun s => .between (.finished s context)) fun _ d => c.position < d.position

theorem gathers_block (place : Location) (context : Context) :
    Gathers fun before => .block place before context :=
  fun _ _ _ => rfl

theorem gathers_rule (earlier : List Rule) (trigger : Trigger) (place : Location) :
    Gathers fun before => .rule earlier trigger place before :=
  fun _ _ _ => rfl

section Parts

variable {statement : Parser (Option Stmt)}

theorem parseStatements_follows {c : Cursor} {within : List Stmt → Context} {before : List Stmt}
    (gathers : Gathers within) (enough : script.last < c.position + fuel)
    (follows : ∀ d, c.position ≤ d.position → FollowsStatement script statement d) :
    Follows script (parseStatements statement fuel before) c
      (.between (.statement (within before))) (fun body => .between (.statement (within body)))
      fun _ d => (script.token d.position).kind = .symbol .rightBrace := by
  induction fuel generalizing c before with
  | zero => exact .of_past enough
  | succ fuel ih =>
    rw [parseStatements]
    apply Follows.check
    by_cases closes : (script.token c.position).kind = .symbol .rightBrace
    · rw [decide_eq_true closes, if_pos rfl]
      exact .pure rfl closes
    · rw [decide_eq_false closes, if_neg Bool.false_ne_true]
      apply Follows.ifAtEnd
      by_cases at_end : (script.token c.position).kind = .eof
      · rw [decide_eq_true at_end, if_pos rfl]
        exact .fail rfl (Reader.beginStatement_eof _ at_end)
      · rw [decide_eq_false at_end, if_neg Bool.false_ne_true]
        apply (follows c (Nat.le_refl _) (within before) fun h => absurd h closes).bind
        intro s d goes lt
        apply Follows.of_take (.between (.statement (within (before ++ s.toList)))) rfl rfl
        · exact gathers before s _
        · exact ih (by omega) fun e le => follows e (by omega)

theorem parseBraced_follows {within : List Stmt → Context} {done : List Stmt → Mode}
    (gathers : Gathers within) (enough : script.last ≤ c.position + fuel)
    (closes : ∀ body, closeBrace (within body) = .ok (.between (done body)))
    (opens : (script.token c.position).kind = .symbol .leftBrace →
      state.take (script.token c.position) = .ok (.between (.statement (within []))))
    (refused : (script.token c.position).kind ≠ .symbol .leftBrace →
      state.program? = none ∧ state.take (script.token c.position) = .error (.symbol .leftBrace))
    (follows : ∀ d, c.position < d.position → FollowsStatement script statement d) :
    Follows script (parseBraced statement fuel) c state (fun body => .between (done body))
      fun _ d => c.position < d.position := by
  rw [parseBraced]
  apply Follows.expect
  · intro kind_eq
    refine ⟨_, opens kind_eq, ?_⟩
    have further : script.last < c.position + 1 + fuel := by omega
    have inner : Follows script (parseStatements statement fuel []) (c.moveTo (c.position + 1))
        (.between (.statement (within []))) _ _ :=
      parseStatements_follows gathers further fun d le => follows d le
    apply inner.bind
    intro body d goes kind_eq
    apply Follows.expect
    · intro _
      refine ⟨.between (done body), ?_, .pure rfl ?_⟩
      · rw [State.take, Mode.take, beginStatement, kind_eq]
        exact closes body
      · exact Nat.lt_succ_of_lt goes.forward
    · exact fun other => absurd kind_eq other
  · exact refused

theorem parseFor_follows (enough : script.last ≤ c.position + fuel)
    (kind_eq : (script.token c.position).kind = .symbol .forWord)
    (follows : ∀ d, c.position < d.position → FollowsStatement script statement d) :
    Follows script (parseFor statement fuel (script.token c.position).place) c
      (.between (.statement context)) (fun s => .between (.finished (some s) context))
      fun _ d => c.position < d.position := by
  rw [parseFor]
  apply Follows.expect
  · intro _
    refine ⟨.between (.expect .leftParen (.forInit (script.token c.position).place context)),
      ?_, ?_⟩
    · rw [State.take, Mode.take, beginStatement, kind_eq]
    · have further : script.last ≤ c.position + 1 + fuel := by omega
      apply (parseHeader_follows further).bind
      intro header d goes begun
      have begun : c.position + 1 < d.position := begun
      apply (follows d (by omega) _ fun _ => rfl).bind
      intro s d' goes' lt
      apply Follows.of_take (.between (.finished (some _) context)) rfl rfl
      · rfl
      · exact .pure rfl (by omega)
  · exact fun other => absurd kind_eq other

theorem parseIf_follows (enough : script.last ≤ c.position + fuel)
    (kind_eq : (script.token c.position).kind = .symbol .ifWord)
    (follows : ∀ d, c.position < d.position → FollowsStatement script statement d) :
    Follows script (parseIf statement fuel (script.token c.position).place) c
      (.between (.statement context)) (fun s => .between (.finished (some s) context))
      fun _ d => c.position < d.position := by
  rw [parseIf]
  apply Follows.expect
  · intro _
    refine ⟨.between (.expect .leftParen (.ifCondition (script.token c.position).place context)),
      ?_, ?_⟩
    · rw [State.take, Mode.take, beginStatement, kind_eq]
    · apply Follows.expectNext
      have further : script.last < c.position + 1 + 1 + fuel := by omega
      apply (parseExpr_follows_of_begin (.ifCondition _ context) rfl further rfl).bind
      intro condition d goes begun
      have begun : c.position + 1 + 1 < d.position := begun
      apply Follows.expectNext
      apply (follows _ (Nat.lt_succ_of_lt (by omega)) (.thenBranch ..) fun _ => rfl).bind
      intro branch d' goes' later
      have later : d.position + 1 < d'.position := later
      apply (acceptElse_follows (by omega)).bind
      intro found d'' goes'' _
      have forward := goes''.forward
      cases found with
      | false => exact .pure rfl (by omega)
      | true =>
        apply (follows d'' (by omega) (.elseBranch ..) fun _ => rfl).bind
        intro other e goes_on lt
        apply Follows.of_take (.between (.finished (some _) context)) rfl rfl
        · rfl
        · exact .pure rfl (by omega)
  · exact fun other => absurd kind_eq other

end Parts

theorem take_statement {next : State}
    (begins : beginStatement context (script.token c.position) = .ok next) :
    (State.between (.statement context)).take (script.token c.position) = .ok next :=
  begins

theorem parseStatement_follows {c : Cursor} (enough : script.last < c.position + fuel) :
    FollowsStatement script (parseStatement fuel) c := by
  induction fuel generalizing c with
  | zero => exact fun _ _ => .of_past enough
  | succ fuel ih =>
    have within_fuel : script.last ≤ c.position + fuel := Nat.le_of_lt_succ enough
    have follows (d : Cursor) (lt : c.position < d.position) :
        FollowsStatement script (parseStatement fuel) d :=
      ih (by omega)
    intro context unclosed
    have simple (begins : beginStatement context (script.token c.position) =
        beginSimple (.statement context) (script.token c.position)) :
        Follows script (parseSimple fuel >>= fun s => pure (some (.simple s))) c
          (.between (.statement context)) (fun s => .between (.finished s context))
          fun _ d => c.position < d.position := by
      apply Follows.map
      exact parseSimple_follows (.statement context) rfl within_fuel begins
    rw [parseStatement]
    apply Follows.look
    split
    · next kind_eq =>
      apply Follows.advance
      · apply take_statement
        rw [beginStatement, kind_eq]
      · exact .pure rfl (Nat.lt_succ_self _)
    · next kind_eq =>
      apply Follows.map
      apply parseBraced_follows (gathers_block (script.token c.position).place context)
        within_fuel
      · exact fun _ => rfl
      · intro _
        apply take_statement
        rw [beginStatement, kind_eq]
      · exact fun other => absurd kind_eq other
      · exact follows
    · next kind_eq =>
      apply Follows.map
      exact parseIf_follows within_fuel kind_eq follows
    · next kind_eq =>
      apply Follows.map
      exact parseFor_follows within_fuel kind_eq follows
    · next kind_eq =>
      apply Follows.advance
      · apply take_statement
        rw [beginStatement, kind_eq]
      · apply Follows.expectNext
        exact .pure rfl (Nat.lt_succ_of_lt (Nat.lt_succ_self _))
    · next kind_eq =>
      apply Follows.map
      exact parsePrint_follows within_fuel kind_eq
    · next kind_eq => exact simple (by rw [beginStatement, kind_eq])
    · next kind_eq => exact simple (by rw [beginStatement, kind_eq])
    · next x kind_eq => exact simple (by rw [beginStatement, kind_eq])
    · next not_semicolon not_brace not_if not_for not_break not_print not_up not_down not_name =>
      apply Follows.fail rfl
      rw [State.take, Mode.take, Reader.beginStatement.eq_def]
      split <;> simp_all

section Rules

variable {earlier : List Rule}

theorem parseTriggered_follows (enough : script.last ≤ c.position + fuel) (trigger : Trigger)
    (place : Location) :
    Follows script (parseBraced (parseStatement fuel) fuel) c
      (.between (.expect .leftBrace (.statement (.rule earlier trigger place []))))
      (fun body => .between (.rules (earlier ++ [⟨trigger, body, place⟩])))
      fun _ d => c.position < d.position := by
  apply parseBraced_follows (gathers_rule earlier trigger place) enough
  · exact fun _ => rfl
  · intro kind_eq
    rw [State.take, Mode.take, if_pos kind_eq]
  · intro other
    exact ⟨rfl, by rw [State.take, Mode.take, if_neg other]⟩
  · exact fun d lt => parseStatement_follows (by omega)

theorem take_rules {next : State}
    (begins : Reader.beginRule earlier (script.token c.position) = .ok next) :
    (State.between (.rules earlier)).take (script.token c.position) = .ok next :=
  begins

theorem take_rules_pattern (not_begin : (script.token c.position).kind ≠ .symbol .beginWord)
    (not_end : (script.token c.position).kind ≠ .symbol .endWord)
    (not_brace : (script.token c.position).kind ≠ .symbol .leftBrace) :
    (State.between (.rules earlier)).take (script.token c.position) =
      (State.inExpr .start (.pattern earlier (script.token c.position).place)).take
        (script.token c.position) := by
  rw [take_start, State.take, Mode.take, Reader.beginRule.eq_def]
  split
  · next kind_eq => exact absurd kind_eq not_begin
  · next kind_eq => exact absurd kind_eq not_end
  · next kind_eq => exact absurd kind_eq not_brace
  · rfl

theorem parseBare_follows (enough : script.last ≤ c.position + fuel)
    (kind_eq : (script.token c.position).kind = .symbol .leftBrace) :
    Follows script (parseBraced (parseStatement fuel) fuel) c (.between (.rules earlier))
      (fun body => .between (.rules
        (earlier ++ [⟨.eachRecord none, body, (script.token c.position).place⟩])))
      fun _ d => c.position < d.position := by
  apply parseBraced_follows
    (gathers_rule earlier (.eachRecord none) (script.token c.position).place) enough
  · exact fun _ => rfl
  · exact fun _ => take_rules (by rw [Reader.beginRule, kind_eq])
  · exact fun other => absurd kind_eq other
  · exact fun d lt => parseStatement_follows (by omega)

/-- The reader takes a pattern for one at any place but the end of the script, and there too where
it is to begin the first rule. -/
theorem parsePattern_follows (enough : script.last < c.position + fuel)
    (more : c.position = script.last → earlier = [])
    (same : (State.between (.rules earlier)).take (script.token c.position) =
      (State.inExpr .start (.pattern earlier (script.token c.position).place)).take
        (script.token c.position)) :
    Follows script (parseExpr fuel) c (.between (.rules earlier))
      (fun e => .between ((Purpose.pattern earlier (script.token c.position).place).served e))
      fun _ d => c.position < d.position := by
  apply (parseExpr_follows enough _).of_reading
  intro le
  by_cases lt : c.position < script.last
  · exact script.reading_congr_of_lt lt same
  · obtain rfl := more (Nat.le_antisymm le (Nat.le_of_not_lt lt))
    exact script.reading_congr le rfl rfl same

theorem parseRule_follows (enough : script.last < c.position + fuel)
    (more : c.position = script.last → earlier = []) :
    Follows script (parseRule fuel) c (.between (.rules earlier))
      (fun rule => .between (.rules (earlier ++ [rule]))) fun _ d => c.position < d.position := by
  have further : script.last ≤ c.position + 1 + fuel := by omega
  rw [parseRule]
  apply Follows.look
  apply Follows.accept
  · intro kind_eq
    refine ⟨_, take_rules (by rw [Reader.beginRule, kind_eq]), ?_⟩
    apply (parseTriggered_follows further .atStart (script.token c.position).place).bind
    intro body d goes lt
    exact .pure rfl (Nat.lt_trans (Nat.lt_succ_self _) lt)
  · intro not_begin
    rw [if_neg Bool.false_ne_true]
    apply Follows.accept
    · intro kind_eq
      refine ⟨_, take_rules (by rw [Reader.beginRule, kind_eq]), ?_⟩
      apply (parseTriggered_follows further .atEnd (script.token c.position).place).bind
      intro body d goes lt
      exact .pure rfl (Nat.lt_trans (Nat.lt_succ_self _) lt)
    · intro not_end
      rw [if_neg Bool.false_ne_true]
      apply Follows.parseUnless
      · intro kind_eq
        apply Follows.map
        exact parseBare_follows (Nat.le_of_lt enough) kind_eq
      · intro not_brace
        apply (parsePattern_follows enough more
          (take_rules_pattern not_begin not_end not_brace)).bind
        intro e d goes lt
        apply (parseTriggered_follows (by omega) (.eachRecord (some e)) _).bind
        intro body d' goes' lt'
        exact .pure rfl (Nat.lt_trans lt lt')

theorem parseRules_follows {rule : Parser Rule} {c : Cursor} {earlier : List Rule}
    (enough : script.last < c.position + fuel)
    (follows : ∀ d earlier, c.position ≤ d.position → (d.position = script.last → earlier = []) →
      Follows script rule d (.between (.rules earlier))
        (fun rule => .between (.rules (earlier ++ [rule]))) fun _ e => d.position < e.position)
    (more : c.position = script.last → earlier = []) :
    Follows script (parseRules rule fuel earlier) c (.between (.rules earlier))
      (fun program => .between (.rules program))
      fun program d => d.position = script.last ∧ program ≠ [] := by
  induction fuel generalizing c earlier with
  | zero => exact .of_past enough
  | succ fuel ih =>
    rw [parseRules]
    apply (follows c earlier (Nat.le_refl _) more).bind
    intro next d goes lt
    apply Follows.ifAtEnd
    by_cases at_end : (script.token d.position).kind = .eof
    · rw [decide_eq_true at_end, if_pos rfl]
      exact .pure rfl ⟨(script.token_eof_iff goes.le_last).mp at_end, by simp⟩
    · rw [decide_eq_false at_end, if_neg Bool.false_ne_true]
      apply ih (by omega) fun e earlier le => follows e earlier (by omega)
      intro d_eq
      exact absurd ((script.token_eof_iff goes.le_last).mpr d_eq) at_end

theorem parseProgram_follows (enough : script.last < c.position + fuel) :
    Follows script (parseProgram fuel) c .start (fun program => .between (.rules program))
      fun program d => d.position = script.last ∧ program ≠ [] := by
  apply parseRules_follows enough
  · exact fun d earlier le => parseRule_follows (by omega)
  · exact fun _ => rfl

end Rules

end Descent

end FieldScript
