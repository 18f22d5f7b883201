import FieldScript.Proofs.Program.CorrectPrefix
import FieldScript.Proofs.Program.RenderedParts

/-!
# Reading a rendered program

A rendered statement takes the reader to a state that waits behind it. A statement that ends in an
open `if` is not finished by its semicolons, but its state does the same as a finished one on every
token that can follow there. Main statement: what is parsed is well formed, and every well-formed
program is parsed from its rendering.
-/

namespace FieldScript.Reader

variable {token : Token} {state final : State} {ts : List Token} {context : Context}

/-- A semicolon after a finished statement changes nothing for the tokens behind it. -/
theorem afterStatement_semicolon (s : Option Stmt) (context : Context)
    (h : token.kind = .symbol .semicolon) :
    ∃ inner around, afterStatement s context token = .ok (.between (.finished inner around)) ∧
      ∀ behind, afterStatement inner around behind = afterStatement s context behind := by
  induction context generalizing s with
  | rule earlier trigger place before =>
    refine ⟨none, .rule earlier trigger place (before ++ s.toList), ?_, ?_⟩
    · simp [afterStatement, beginStatement, h]
    · simp [afterStatement]
  | block place before outer ih =>
    refine ⟨none, .block place (before ++ s.toList) outer, ?_, ?_⟩
    · simp [afterStatement, beginStatement, h]
    · simp [afterStatement]
  | thenBranch condition place outer ih =>
    exact ⟨s, .thenBranch condition place outer, by simp [afterStatement, h], fun _ => rfl⟩
  | elseBranch condition thenBranch place outer ih => exact ih _
  | forBody header place outer ih => exact ih _

/-- A state behind a statement: a token does what it does after the finished statement, unless it is
a semicolon, or an `else` that the statement could still take. -/
def State.Behind (isOpen : Bool) (s : Option Stmt) (context : Context) (state : State) : Prop :=
  ∃ inner around, state = .between (.finished inner around) ∧ ∀ token,
    token.kind ≠ .symbol .semicolon → (isOpen = true → token.kind ≠ .symbol .elseWord) →
      afterStatement inner around token = afterStatement s context token

namespace State.Behind

variable {isOpen : Bool} {s : Option Stmt}

theorem of_semicolon (s : Option Stmt) (context : Context)
    (h : token.kind = .symbol .semicolon) :
    ∃ final, afterStatement s context token = .ok final ∧ final.Behind false s context := by
  obtain ⟨inner, around, taken, same⟩ := afterStatement_semicolon s context h
  exact ⟨_, taken, inner, around, rfl, fun behind _ _ => same behind⟩

/-- Further semicolons leave a state behind the same statement. -/
theorem semicolon (behind : state.Behind isOpen s context)
    (h : token.kind = .symbol .semicolon) :
    ∃ final, state.take token = .ok final ∧ final.Behind isOpen s context := by
  obtain ⟨inner, around, rfl, same⟩ := behind
  obtain ⟨inner', around', taken, same'⟩ := afterStatement_semicolon inner around h
  refine ⟨_, taken, inner', around', rfl, fun next no_semicolon no_else => ?_⟩
  rw [same' next, same next no_semicolon no_else]

/-- The statement may be told from inside or from outside, where that makes no difference. -/
theorem congr {isOpen' : Bool} {s' : Option Stmt} {context' : Context}
    (behind : state.Behind isOpen s context) (opens : isOpen = true → isOpen' = true)
    (same : ∀ token, token.kind ≠ .symbol .semicolon →
      (isOpen' = true → token.kind ≠ .symbol .elseWord) →
        afterStatement s context token = afterStatement s' context' token) :
    state.Behind isOpen' s' context' := by
  obtain ⟨inner, around, state_eq, same'⟩ := behind
  refine ⟨inner, around, state_eq, fun token no_semicolon no_else => ?_⟩
  rw [same' token no_semicolon fun h => no_else (opens h), same token no_semicolon no_else]

theorem take (behind : state.Behind isOpen s context)
    (no_semicolon : token.kind ≠ .symbol .semicolon)
    (no_else : isOpen = true → token.kind ≠ .symbol .elseWord) :
    state.take token = afterStatement s context token := by
  obtain ⟨inner, around, rfl, same⟩ := behind
  exact same token no_semicolon no_else

end State.Behind

/-- A context that gathers statements in a list. -/
def Gathers (within : List Stmt → Context) : Prop :=
  ∀ before s token, afterStatement s (within before) token =
    beginStatement (within (before ++ s.toList)) token

/-- A state in which the next statement of a list may begin. -/
def State.Ready (context : Context) (state : State) : Prop :=
  ∀ token, token.kind ≠ .symbol .semicolon → token.kind ≠ .symbol .elseWord →
    state.take token = beginStatement context token

/-- A statement is read off its rendering and a semicolon behind it. -/
def ReadsStmt (s : Stmt) : Prop :=
  ∀ (context : Context) (ts : List Token) (semicolon : Token), ts.map Token.kind = s.render →
    semicolon.kind = .symbol .semicolon →
    ∃ d final, d.bare = s.bare ∧
      (State.between (.statement context)).takeAll (ts ++ [semicolon]) = .ok final ∧
      final.Behind s.endsOpen (some d) context

def ReadsBranch (branch : List Stmt) : Prop :=
  ∀ (context : Context) (ts : List Token), ts.map Token.kind = renderBranch branch →
    ∃ (d : Option Stmt) (final : State), d.toList.map Stmt.bare = branch.map Stmt.bare ∧
      (State.between (.statement context)).takeAll ts = .ok final ∧
      final.Behind (branchEndsOpen branch) d context

/-- A list of statements is read off its rendering wherever statements are gathered. -/
def ReadsAll (body : List Stmt) : Prop :=
  ∀ (within : List Stmt → Context) (before : List Stmt) (state : State) (ts : List Token),
    Gathers within → state.Ready (within before) → ts.map Token.kind = renderAll body →
    ∃ (ds : List Stmt) (final : State), ds.map Stmt.bare = body.map Stmt.bare ∧
      state.takeAll ts = .ok final ∧ final.Ready (within (before ++ ds))

/-- A statement is read once its tokens lead to a state in which the semicolon finishes it. -/
theorem reads_finished {s d : Stmt} {mid : State} {semicolon : Token} (shut : s.endsOpen = false)
    (bare_eq : d.bare = s.bare)
    (taken : (State.between (.statement context)).takeAll ts = .ok mid)
    (semicolon_eq : semicolon.kind = .symbol .semicolon)
    (ends : mid.take semicolon = afterStatement (some d) context semicolon) :
    ∃ d final, d.bare = s.bare ∧
      (State.between (.statement context)).takeAll (ts ++ [semicolon]) = .ok final ∧
      final.Behind s.endsOpen (some d) context := by
  obtain ⟨final, finished, behind⟩ := State.Behind.of_semicolon (some d) context semicolon_eq
  refine ⟨d, final, bare_eq, ?_, shut ▸ behind⟩
  rw [State.takeAll_append _ taken, State.takeAll_cons _ (ends.trans finished)]
  rfl

theorem readsStmt_print {args : List Expr} (place : Location) (h : args ≠ []) :
    ReadsStmt (.print args place) := by
  intro context ts semicolon whole_eq semicolon_eq
  obtain ⟨e, rest, rfl⟩ := List.exists_cons_of_ne_nil h
  obtain ⟨word, argTs, rfl, word_eq, args_eq⟩ := List.map_eq_cons_iff.mp whole_eq
  obtain ⟨firstTs, moreTs, rfl, first_eq, more_eq⟩ := List.map_eq_append_iff.mp args_eq
  rcases takeAll_expr e (.printArg [] word.place context) first_eq with
    ⟨d, mid, d_bare, d_taken, d_ends⟩
  rcases takeAll_more rest [d] word.place context d_ends more_eq with
    ⟨ds, last, ds_bare, ds_taken, ds_ends⟩
  have begun : (State.between (.statement context)).take word =
      .ok (.inExpr .start (.printArg [] word.place context)) := by
    simp [State.take, Mode.take, beginStatement, word_eq]
  have bare_eq : (Stmt.print ([d] ++ ds) word.place).bare =
      (Stmt.print (e :: rest) place).bare := by
    simp [Stmt.relocate, d_bare, ds_bare]
  have taken : (State.between (.statement context)).takeAll (word :: (firstTs ++ moreTs)) =
      .ok last := by
    rw [State.takeAll_cons _ begun, State.takeAll_append _ d_taken, ds_taken]
  apply reads_finished rfl bare_eq taken semicolon_eq
  rw [ds_ends.take semicolon_eq rfl, Mode.take, if_neg (by simp [semicolon_eq])]

theorem readsStmt_simple (s : Simple) : ReadsStmt (.simple s) := by
  intro context ts semicolon whole_eq semicolon_eq
  obtain ⟨d, mid, d_bare, d_taken, d_ends⟩ := takeAll_simple s (.statement context) whole_eq
  have bare_eq : (Stmt.simple d).bare = (Stmt.simple s).bare := by
    simp only [Stmt.bare, Stmt.relocate, d_bare]
  apply reads_finished rfl bare_eq d_taken semicolon_eq
  rw [d_ends.take semicolon_eq rfl]
  rfl

theorem readsStmt_break (place : Location) : ReadsStmt (.breakLoop place) := by
  intro context ts semicolon whole_eq semicolon_eq
  obtain ⟨word, rfl, word_eq⟩ := List.map_eq_singleton_iff.mp whole_eq
  let finished : Mode := .finished (some (.breakLoop word.place)) context
  have begun : (State.between (.statement context)).take word =
      .ok (.between (.expect .semicolon finished)) := by
    simp [State.take, Mode.take, beginStatement, word_eq, finished]
  have ended : (State.between (.expect .semicolon finished)).take semicolon =
      .ok (.between finished) := by
    rw [State.take, Mode.take, if_pos semicolon_eq]
  refine ⟨.breakLoop word.place, _, rfl, ?_, _, _, rfl, fun _ _ _ => rfl⟩
  rw [List.singleton_append, State.takeAll_cons _ begun, State.takeAll_cons _ ended]
  rfl

theorem takeAll_braced {body : List Stmt} (hb : ReadsAll body) (context : Context)
    (h : ts.map Token.kind = braced (renderAll body)) :
    ∃ ds place, ds.map Stmt.bare = body.map Stmt.bare ∧
      (State.between (.statement context)).takeAll ts =
        .ok (.between (.finished (some (.block ds place)) context)) := by
  obtain ⟨front, last, rfl, front_eq, last_eq⟩ := List.map_eq_append_iff.mp h
  obtain ⟨leftBrace, bodyTs, rfl, left_eq, body_eq⟩ := List.map_eq_cons_iff.mp front_eq
  obtain ⟨rightBrace, rfl, right_eq⟩ := List.map_eq_singleton_iff.mp last_eq
  obtain ⟨ds, final, ds_bare, ds_taken, ready⟩ :=
    hb (fun before => .block leftBrace.place before context) []
      (.between (.statement (.block leftBrace.place [] context))) bodyTs
      (fun _ _ _ => rfl) (fun _ _ _ => rfl) body_eq
  refine ⟨ds, leftBrace.place, ds_bare, ?_⟩
  have opened : (State.between (.statement context)).take leftBrace =
      .ok (.between (.statement (.block leftBrace.place [] context))) := by
    simp [State.take, Mode.take, beginStatement, left_eq]
  have closed : final.take rightBrace =
      .ok (.between (.finished (some (.block ds leftBrace.place)) context)) := by
    rw [ready rightBrace (by simp [right_eq]) (by simp [right_eq])]
    simp [beginStatement, right_eq, closeBrace]
  rw [List.cons_append, State.takeAll_cons _ opened, State.takeAll_append _ ds_taken,
    State.takeAll_cons _ closed]
  rfl

theorem readsStmt_block {body : List Stmt} (hb : ReadsAll body) (place : Location) :
    ReadsStmt (.block body place) := by
  intro context ts semicolon whole_eq semicolon_eq
  obtain ⟨ds, start, ds_bare, taken⟩ := takeAll_braced hb context whole_eq
  have bare_eq : (Stmt.block ds start).bare = (Stmt.block body place).bare := by
    simp [Stmt.relocate, ds_bare]
  exact reads_finished rfl bare_eq taken semicolon_eq rfl

theorem readsStmt_for {body : List Stmt} (hb : ReadsAll body) (header : LoopHeader)
    (place : Location) : ReadsStmt (.forLoop header body place) := by
  intro context ts semicolon whole_eq semicolon_eq
  obtain ⟨front, bodyTs, rfl, front_eq, body_eq⟩ := List.map_eq_append_iff.mp whole_eq
  obtain ⟨word, headerTs, rfl, word_eq, header_eq⟩ := List.map_eq_cons_iff.mp front_eq
  obtain ⟨d, d_bare, d_taken⟩ := takeAll_header header word.place context header_eq
  rcases takeAll_braced hb (.forBody d word.place context) body_eq with
    ⟨ds, start, ds_bare, ds_taken⟩
  have begun : (State.between (.statement context)).take word =
      .ok (.between (.expect .leftParen (.forInit word.place context))) := by
    simp [State.take, Mode.take, beginStatement, word_eq]
  have bare_eq : (Stmt.forLoop d ds word.place).bare = (Stmt.forLoop header body place).bare := by
    simp [Stmt.relocate, d_bare, ds_bare]
  have taken : (State.between (.statement context)).takeAll (word :: headerTs ++ bodyTs) =
      .ok (.between (.finished (some (.block ds start)) (.forBody d word.place context))) := by
    rw [List.cons_append, State.takeAll_cons _ begun, State.takeAll_append _ d_taken, ds_taken]
  exact reads_finished rfl bare_eq taken semicolon_eq rfl

/-- Behind the branch of an `if`, a token that can be no part of its `else` finishes the `if`. -/
theorem afterStatement_thenBranch (s : Option Stmt) (condition : Expr) (place : Location)
    (context : Context) (no_semicolon : token.kind ≠ .symbol .semicolon)
    (no_else : token.kind ≠ .symbol .elseWord) :
    afterStatement s (.thenBranch condition place context) token =
      afterStatement (some (.ifElse condition s.toList none place)) context token := by
  rw [afterStatement]
  split
  · next kind_eq => exact absurd kind_eq no_semicolon
  · next kind_eq => exact absurd kind_eq no_else
  · rfl

theorem takeAll_condition (condition : Expr) (context : Context)
    (h : ts.map Token.kind = [.symbol .ifWord, .symbol .leftParen] ++
      (condition.render ++ [.symbol .rightParen])) :
    ∃ d place, d.bare = condition.bare ∧ (State.between (.statement context)).takeAll ts =
      .ok (.between (.statement (.thenBranch d place context))) := by
  obtain ⟨front, back, rfl, front_eq, back_eq⟩ := List.map_eq_append_iff.mp h
  obtain ⟨word, front, rfl, word_eq, front_eq⟩ := List.map_eq_cons_iff.mp front_eq
  obtain ⟨leftParen, rfl, left_eq⟩ := List.map_eq_singleton_iff.mp front_eq
  obtain ⟨conditionTs, last, rfl, condition_eq, last_eq⟩ := List.map_eq_append_iff.mp back_eq
  obtain ⟨rightParen, rfl, right_eq⟩ := List.map_eq_singleton_iff.mp last_eq
  obtain ⟨d, -, final, d_bare, d_taken, d_ends⟩ :=
    takeAll_expr_from (.ifCondition word.place context) condition
      (fun _ => .ifCondition word.place context) (fun _ _ _ _ _ => rfl) condition_eq
  refine ⟨d, word.place, d_bare, ?_⟩
  have begun : (State.between (.statement context)).take word =
      .ok (.between (.expect .leftParen (.ifCondition word.place context))) := by
    simp [State.take, Mode.take, beginStatement, word_eq]
  have opened : (State.between (.expect .leftParen (.ifCondition word.place context))).take
      leftParen = .ok (.between (.ifCondition word.place context)) := by
    rw [State.take, Mode.take, if_pos left_eq]
  have closed : final.take rightParen =
      .ok (.between (.statement (.thenBranch d word.place context))) := by
    rw [d_ends.take right_eq rfl, Purpose.served, Mode.take, if_pos right_eq]
  rw [List.cons_append, List.singleton_append, State.takeAll_cons _ begun,
    State.takeAll_cons _ opened, State.takeAll_append _ d_taken, State.takeAll_cons _ closed]
  rfl

theorem readsStmt_if {thenBranch : List Stmt} (ht : ReadsBranch thenBranch) (condition : Expr)
    (place : Location) : ReadsStmt (.ifElse condition thenBranch none place) := by
  intro context ts semicolon whole_eq semicolon_eq
  obtain ⟨frontTs, branchTs, rfl, front_eq, branch_eq⟩ := List.map_eq_append_iff.mp whole_eq
  rw [renderElse, List.append_nil] at branch_eq
  obtain ⟨d, start, d_bare, d_taken⟩ := takeAll_condition condition context front_eq
  rcases ht (.thenBranch d start context) branchTs branch_eq with
    ⟨branch, mid, branch_bare, branch_taken, behind⟩
  obtain ⟨final, ended, behind⟩ := behind.semicolon semicolon_eq
  refine ⟨.ifElse d branch.toList none start, final, ?_, ?_, ?_⟩
  · simp [Stmt.relocate, d_bare, branch_bare]
  · rw [List.append_assoc, State.takeAll_append _ d_taken, State.takeAll_append _ branch_taken,
      State.takeAll_cons _ ended]
    rfl
  · exact behind.congr (fun _ => rfl) fun token no_semicolon no_else =>
      afterStatement_thenBranch branch d start context no_semicolon (no_else rfl)

theorem readsStmt_ifElse {thenBranch elseBranch : List Stmt} (ht : ReadsBranch thenBranch)
    (shut : branchEndsOpen thenBranch = false) (he : ReadsBranch elseBranch) (condition : Expr)
    (place : Location) : ReadsStmt (.ifElse condition thenBranch (some elseBranch) place) := by
  intro context ts semicolon whole_eq semicolon_eq
  obtain ⟨frontTs, branchTs, rfl, front_eq, branch_eq⟩ := List.map_eq_append_iff.mp whole_eq
  obtain ⟨thenTs, elseTs, rfl, then_eq, else_eq⟩ := List.map_eq_append_iff.mp branch_eq
  obtain ⟨word, elseTs, rfl, word_eq, else_eq⟩ := List.map_eq_cons_iff.mp else_eq
  obtain ⟨d, start, d_bare, d_taken⟩ := takeAll_condition condition context front_eq
  rcases ht (.thenBranch d start context) thenTs then_eq with
    ⟨first, mid, first_bare, first_taken, first_behind⟩
  -- Only a branch that is shut leaves the `else` to this `if`.
  have turned : mid.take word =
      .ok (.between (.statement (.elseBranch d first.toList start context))) := by
    rw [first_behind.take (by simp [word_eq]) (by simp [shut])]
    simp [afterStatement, word_eq]
  rcases he (.elseBranch d first.toList start context) elseTs else_eq with
    ⟨second, mid, second_bare, second_taken, behind⟩
  obtain ⟨final, ended, behind⟩ := behind.semicolon semicolon_eq
  refine ⟨.ifElse d first.toList (some second.toList) start, final, ?_, ?_, ?_⟩
  · simp [Stmt.relocate, d_bare, first_bare, second_bare]
  · rw [List.append_assoc, List.append_assoc, List.cons_append, State.takeAll_append _ d_taken,
      State.takeAll_append _ first_taken, State.takeAll_cons _ turned,
      State.takeAll_append _ second_taken, State.takeAll_cons _ ended]
    rfl
  · rw [endsOpen_ifElse_some]
    exact behind.congr id fun _ _ _ => rfl

theorem readsBranch_nil : ReadsBranch [] := by
  intro context ts whole_eq
  obtain ⟨semicolon, rfl, semicolon_eq⟩ := List.map_eq_singleton_iff.mp whole_eq
  refine ⟨none, .between (.finished none context), rfl, State.takeAll_cons [] ?_, none, context,
    rfl, fun _ _ _ => rfl⟩
  simp [State.take, Mode.take, beginStatement, semicolon_eq]

theorem readsBranch_singleton {s : Stmt} (hs : ReadsStmt s) : ReadsBranch [s] := by
  intro context ts whole_eq
  obtain ⟨ts, last, rfl, ts_eq, last_eq⟩ := List.map_eq_append_iff.mp whole_eq
  obtain ⟨semicolon, rfl, semicolon_eq⟩ := List.map_eq_singleton_iff.mp last_eq
  obtain ⟨d, final, d_bare, taken, behind⟩ := hs context ts semicolon ts_eq semicolon_eq
  exact ⟨some d, final, by simp [d_bare], taken, behind⟩

theorem readsAll_nil : ReadsAll [] := by
  intro within before state ts gathers ready whole_eq
  rw [List.map_eq_nil_iff.mp whole_eq]
  exact ⟨[], state, rfl, rfl, by simpa using ready⟩

theorem render_stmt_head (s : Stmt) : ∃ kind kinds, s.render = kind :: kinds ∧
    kind ≠ .symbol .semicolon ∧ kind ≠ .symbol .elseWord := by
  rcases s with _ | s | _ | _ | _ | _
  case simple =>
    rcases s with _ | ⟨x, step, _ | _, place⟩
    · exact ⟨_, _, rfl, by simp⟩
    · exact ⟨_, _, rfl, by cases step <;> simp [Step.symbol]⟩
    · exact ⟨_, _, rfl, by simp⟩
  all_goals exact ⟨_, _, rfl, by simp⟩

theorem readsAll_cons {s : Stmt} {rest : List Stmt} (hs : ReadsStmt s) (hrest : ReadsAll rest) :
    ReadsAll (s :: rest) := by
  intro within before state ts gathers ready whole_eq
  obtain ⟨firstTs, back, rfl, first_eq, back_eq⟩ := List.map_eq_append_iff.mp whole_eq
  obtain ⟨semicolon, restTs, rfl, semicolon_eq, rest_eq⟩ := List.map_eq_cons_iff.mp back_eq
  rcases hs (within before) firstTs semicolon first_eq semicolon_eq with
    ⟨d, mid, d_bare, d_taken, behind⟩
  have next_ready : mid.Ready (within (before ++ [d])) := by
    intro token no_semicolon no_else
    rw [behind.take no_semicolon fun _ => no_else, gathers]
    rfl
  rcases hrest within (before ++ [d]) mid restTs gathers next_ready rest_eq with
    ⟨ds, final, ds_bare, ds_taken, final_ready⟩
  refine ⟨d :: ds, final, by simp [d_bare, ds_bare], ?_, by simpa using final_ready⟩
  have d_read : state.takeAll (firstTs ++ [semicolon]) = .ok mid := by
    obtain ⟨kind, kinds, render_eq, no_semicolon, no_else⟩ := render_stmt_head s
    obtain ⟨head, tail, rfl, head_eq, -⟩ := List.map_eq_cons_iff.mp (first_eq.trans render_eq)
    subst head_eq
    rw [← d_taken]
    exact State.takeAll_congr _ (ready head no_semicolon no_else)
  rw [List.append_cons, State.takeAll_append _ d_read, ds_taken]

mutual

theorem readsStmt : (s : Stmt) → s.WellFormed → ReadsStmt s
  | .print _ place, wf => readsStmt_print place wf
  | .simple s, _ => readsStmt_simple s
  | .ifElse condition thenBranch none place, wf =>
    readsStmt_if (readsBranch thenBranch wf.1 wf.2.1) condition place
  | .ifElse condition thenBranch (some elseBranch) place, wf =>
    readsStmt_ifElse (readsBranch thenBranch wf.1 wf.2.1) (wf.2.2.2 rfl)
      (readsBranch elseBranch wf.2.2.1.1 wf.2.2.1.2) condition place
  | .forLoop header body place, wf => readsStmt_for (readsAll body wf) header place
  | .breakLoop place, _ => readsStmt_break place
  | .block body place, wf => readsStmt_block (readsAll body wf) place

theorem readsBranch : (branch : List Stmt) → AllWellFormed branch → branch.length ≤ 1 →
    ReadsBranch branch
  | [], _, _ => readsBranch_nil
  | [s], wf, _ => readsBranch_singleton (readsStmt s wf.1)

theorem readsAll : (body : List Stmt) → AllWellFormed body → ReadsAll body
  | [], _ => readsAll_nil
  | s :: rest, wf => readsAll_cons (readsStmt s wf.1) (readsAll rest wf.2)

end

/-- A rule with a word for its trigger. -/
theorem takeAll_marked {word leftBrace : Token} {mode next : Mode}
    (begun : (State.between mode).take word = .ok (.between (.expect .leftBrace next)))
    (left_eq : leftBrace.kind = .symbol .leftBrace) :
    (State.between mode).takeAll [word, leftBrace] = .ok (.between next) := by
  have opened : (State.between (.expect .leftBrace next)).take leftBrace = .ok (.between next) := by
    rw [State.take, Mode.take, if_pos left_eq]
  rw [State.takeAll_cons _ begun, State.takeAll_cons _ opened]
  rfl

theorem takeAll_trigger (trigger : Trigger) (earlier : List Rule)
    (h : ts.map Token.kind = trigger.render ++ [.symbol .leftBrace]) :
    ∃ d place, d.relocate (fun _ => .start) = trigger.relocate (fun _ => .start) ∧
      (State.between (.rules earlier)).takeAll ts =
        .ok (.between (.statement (.rule earlier d place []))) := by
  obtain ⟨ts, last, rfl, ts_eq, last_eq⟩ := List.map_eq_append_iff.mp h
  obtain ⟨leftBrace, rfl, left_eq⟩ := List.map_eq_singleton_iff.mp last_eq
  cases trigger with
  | atStart =>
    obtain ⟨word, rfl, word_eq⟩ := List.map_eq_singleton_iff.mp ts_eq
    refine ⟨.atStart, word.place, rfl, takeAll_marked ?_ left_eq⟩
    simp [State.take, Mode.take, beginRule, word_eq]
  | atEnd =>
    obtain ⟨word, rfl, word_eq⟩ := List.map_eq_singleton_iff.mp ts_eq
    refine ⟨.atEnd, word.place, rfl, takeAll_marked ?_ left_eq⟩
    simp [State.take, Mode.take, beginRule, word_eq]
  | eachRecord pattern =>
    cases pattern with
    | none =>
      rw [List.map_eq_nil_iff.mp ts_eq]
      refine ⟨.eachRecord none, leftBrace.place, rfl, State.takeAll_cons [] ?_⟩
      simp [State.take, Mode.take, beginRule, left_eq]
    | some e =>
      have begins (token : Token) (no_brace : token.kind ≠ .symbol .leftBrace)
          (no_begin : token.kind ≠ .symbol .beginWord) (no_end : token.kind ≠ .symbol .endWord) :
          (Mode.rules earlier).take token = beginExpr (.pattern earlier token.place) token := by
        rw [Mode.take, beginRule]
        split
        · next kind_eq => exact absurd kind_eq no_begin
        · next kind_eq => exact absurd kind_eq no_end
        · next kind_eq => exact absurd kind_eq no_brace
        · rfl
      rcases takeAll_expr_from (.rules earlier) e (.pattern earlier)
          (fun token _ no_brace no_begin no_end => begins token no_brace no_begin no_end) ts_eq
        with ⟨d, place, final, d_bare, d_taken, d_ends⟩
      refine ⟨.eachRecord (some d), place, ?_, ?_⟩
      · simp only [Trigger.relocate, Option.map_some, d_bare]
      · have closed : final.take leftBrace =
            .ok (.between (.statement (.rule earlier (.eachRecord (some d)) place []))) := by
          rw [d_ends.take left_eq rfl, Purpose.served, Mode.take, if_pos left_eq]
        rw [State.takeAll_append _ d_taken, State.takeAll_cons _ closed]
        rfl

theorem takeAll_rule (rule : Rule) (earlier : List Rule) (wf : AllWellFormed rule.body)
    (h : ts.map Token.kind = rule.render) :
    ∃ d, d.bare = rule.bare ∧ (State.between (.rules earlier)).takeAll ts =
      .ok (.between (.rules (earlier ++ [d]))) := by
  rw [Rule.render, braced, List.cons_append, List.append_cons] at h
  obtain ⟨frontTs, back, rfl, front_eq, back_eq⟩ := List.map_eq_append_iff.mp h
  obtain ⟨bodyTs, last, rfl, body_eq, last_eq⟩ := List.map_eq_append_iff.mp back_eq
  obtain ⟨rightBrace, rfl, right_eq⟩ := List.map_eq_singleton_iff.mp last_eq
  obtain ⟨trigger, place, d_bare, d_taken⟩ := takeAll_trigger rule.trigger earlier front_eq
  rcases readsAll rule.body wf (.rule earlier trigger place) []
      (.between (.statement (.rule earlier trigger place []))) bodyTs
      (fun _ _ _ => rfl) (fun _ _ _ => rfl) body_eq with ⟨ds, final, ds_bare, ds_taken, ready⟩
  refine ⟨⟨trigger, ds, place⟩, ?_, ?_⟩
  · simp [Rule.relocate, d_bare, ds_bare]
  · have closed : final.take rightBrace =
        .ok (.between (.rules (earlier ++ [⟨trigger, ds, place⟩]))) := by
      rw [ready rightBrace (by simp [right_eq]) (by simp [right_eq])]
      simp [beginStatement, right_eq, closeBrace]
    rw [State.takeAll_append _ d_taken, State.takeAll_append _ ds_taken,
      State.takeAll_cons _ closed]
    rfl

theorem takeAll_rules (rules earlier : List Rule) (wf : RulesWellFormed rules)
    (h : ts.map Token.kind = Program.render rules) :
    ∃ ds, ds.map Rule.bare = rules.map Rule.bare ∧
      (State.between (.rules earlier)).takeAll ts = .ok (.between (.rules (earlier ++ ds))) := by
  induction rules generalizing earlier ts with
  | nil =>
    rw [List.map_eq_nil_iff.mp h]
    exact ⟨[], rfl, by simp⟩
  | cons rule rest ih =>
    rcases List.map_eq_append_iff.mp (h.trans List.flatMap_cons) with
      ⟨firstTs, restTs, rfl, first_eq, rest_eq⟩
    rcases takeAll_rule rule earlier (wf rule List.mem_cons_self) first_eq with
      ⟨d, d_bare, d_taken⟩
    rcases ih (earlier ++ [d]) (fun rule member => wf rule (List.mem_cons_of_mem _ member))
        rest_eq with ⟨ds, ds_bare, ds_taken⟩
    refine ⟨d :: ds, by rw [List.map_cons, List.map_cons, d_bare, ds_bare], ?_⟩
    rw [State.takeAll_append _ d_taken, ds_taken]
    simp

end FieldScript.Reader

namespace FieldScript

theorem Stream.parse_render {program : Program} (wf : program.WellFormed) {tokens : List Token}
    (h : tokens.map Token.kind = program.render) :
    ∃ d, (Stream.ofTokens tokens).parse = (.ok d, ⟨[], (Stream.ofTokens tokens).eof⟩) ∧
      d.bare = program.bare := by
  obtain ⟨rules, bare_eq, taken⟩ := Reader.takeAll_rules program [] wf.2 h
  have rules_ne : rules ≠ [] := by
    intro rules_eq
    rw [rules_eq] at bare_eq
    exact wf.1 (List.map_eq_nil_iff.mp bare_eq.symm)
  have complete : (Reader.State.between (.rules ([] ++ rules))).program? = some rules := by
    cases rules with
    | nil => exact absurd rfl rules_ne
    | cons first more => rfl
  refine ⟨rules, ?_, bare_eq⟩
  rw [parse, ofTokens_of_no_eof (Reader.State.takeAll_ne_eof taken)]
  rw [Reader.State.start, Reader.read_of_takeAll _ taken complete]

/-- What is parsed from any tokens is well formed, and every well-formed program is parsed from any
tokens of its rendering, locations aside. -/
theorem parse_wellFormed_and_roundTrip :
    (∀ (stream : Stream) (program : Program), stream.parse.1 = .ok program →
      program.WellFormed) ∧
    ∀ (program : Program) (tokens : List Token), program.WellFormed →
      tokens.map Token.kind = program.render →
      ∃ d, (Stream.ofTokens tokens).parse = (.ok d, ⟨[], (Stream.ofTokens tokens).eof⟩) ∧
        d.bare = program.bare :=
  ⟨fun _ _ => Stream.wellFormed_of_parse, fun _ _ wf h => Stream.parse_render wf h⟩

/-- The program `{ if (a) ; else if (b) print c; ; }`. -/
def elseChain : Program :=
  let inner := Stmt.ifElse (.var "b" .start) [.print [.var "c" .start] .start] none .start
  [⟨.eachRecord none, [.ifElse (.var "a" .start) [] (some [inner]) .start], .start⟩]

def elseChainTokens : List Token := elseChain.render.map fun kind => ⟨kind, .start⟩

theorem elseChain_roundTrip :
    elseChain.WellFormed ∧ (Stream.ofTokens elseChainTokens).parse.1 = .ok elseChain ∧
      ∃ d, (Stream.ofTokens elseChainTokens).parse =
          (.ok d, ⟨[], (Stream.ofTokens elseChainTokens).eof⟩) ∧
        d.bare = elseChain.bare := by
  have parsed : (Stream.ofTokens elseChainTokens).parse.1 = .ok elseChain := by rfl
  have wf : elseChain.WellFormed := parse_wellFormed_and_roundTrip.1 _ _ parsed
  have kinds_eq : elseChainTokens.map Token.kind = elseChain.render := by rfl
  exact ⟨wf, parsed, parse_wellFormed_and_roundTrip.2 _ _ wf kinds_eq⟩

end FieldScript
