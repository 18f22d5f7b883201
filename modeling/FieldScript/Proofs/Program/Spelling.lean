import FieldScript.Proofs.Program.Rendering

/-!
# The grammar of programs

The tokens of a program, written as freely as a script may be: parentheses around any part,
semicolons between statements and before an `else`, a loop body with braces or without. Every node
is placed at one of its tokens. What is left of the tokens without the delimiters is the same for
all spellings of a program.
-/

namespace FieldScript

open Reader (bodyOf)

/-- Tokens of an assignment or increment, which is placed at the first of them. -/
inductive SpellsSimple : List Token → Simple → Prop where
  | assign {ts : List Token} {x : String} {op : Option Arith} {e : Expr} {place sign : Location}
    (value : Spells 1 ts e) :
    SpellsSimple (⟨.name x, place⟩ :: ⟨.symbol (assignSymbol op), sign⟩ :: ts)
      (.assign x op e place)
  | stepBefore {x : String} {step : Step} {place name : Location} :
    SpellsSimple [⟨.symbol step.symbol, place⟩, ⟨.name x, name⟩] (.increment x step .before place)
  | stepAfter {x : String} {step : Step} {place sign : Location} :
    SpellsSimple [⟨.name x, place⟩, ⟨.symbol step.symbol, sign⟩] (.increment x step .after place)

inductive SpellsOptional {α : Type} (spells : List Token → α → Prop) :
    List Token → Option α → Prop where
  | none : SpellsOptional spells [] none
  | some {ts : List Token} {a : α} (h : spells ts a) : SpellsOptional spells ts (some a)

inductive SpellsArgs : List Token → List Expr → Prop where
  | first {ts : List Token} {e : Expr} (h : Spells 1 ts e) : SpellsArgs ts [e]
  | more {ts us : List Token} {args : List Expr} {e : Expr} {comma : Location}
    (before : SpellsArgs ts args) (h : Spells 1 us e) :
    SpellsArgs (ts ++ ⟨.symbol .comma, comma⟩ :: us) (args ++ [e])

/-- The front of an `if`, with its condition and its place. -/
inductive SpellsIf : List Token → Expr → Location → Prop where
  | mk {ts : List Token} {condition : Expr} {place left right : Location}
    (h : Spells 1 ts condition) :
    SpellsIf (⟨.symbol .ifWord, place⟩ :: ⟨.symbol .leftParen, left⟩ :: ts ++
      [⟨.symbol .rightParen, right⟩]) condition place

/-- The front of a `for`, with its header and its place. -/
inductive SpellsFor : List Token → LoopHeader → Location → Prop where
  | mk {is cs us : List Token} {header : LoopHeader} {place left first second right : Location}
    (init : SpellsOptional SpellsSimple is header.init)
    (condition : SpellsOptional (Spells 1) cs header.condition)
    (update : SpellsOptional SpellsSimple us header.update) :
    SpellsFor (⟨.symbol .forWord, place⟩ :: ⟨.symbol .leftParen, left⟩ :: is ++
      ⟨.symbol .semicolon, first⟩ :: cs ++ ⟨.symbol .semicolon, second⟩ :: us ++
      [⟨.symbol .rightParen, right⟩]) header place

def Semicolons (ts : List Token) : Prop := ∀ token ∈ ts, token.kind = .symbol .semicolon

theorem Semicolons.nil : Semicolons [] := by simp [Semicolons]

theorem Semicolons.snoc {ts : List Token} (h : Semicolons ts) (place : Location) :
    Semicolons (ts ++ [⟨.symbol .semicolon, place⟩]) := by
  intro token member
  rcases List.mem_append.mp member with member | member
  · exact h token member
  · rw [List.mem_singleton.mp member]

mutual

/-- Tokens of a statement. A bare semicolon leaves none, and the braces of a loop body leave no
block. -/
inductive SpellsStmt : List Token → Option Stmt → Prop where
  | semicolon {place : Location} : SpellsStmt [⟨.symbol .semicolon, place⟩] none
  | simple {ts : List Token} {s : Simple} (h : SpellsSimple ts s) :
    SpellsStmt ts (some (.simple s))
  | print {ts : List Token} {args : List Expr} {place : Location} (h : SpellsArgs ts args) :
    SpellsStmt (⟨.symbol .printWord, place⟩ :: ts) (some (.print args place))
  | breakLoop {place semicolon : Location} :
    SpellsStmt [⟨.symbol .breakWord, place⟩, ⟨.symbol .semicolon, semicolon⟩]
      (some (.breakLoop place))
  | block {ts : List Token} {body : List Stmt} {place right : Location} (h : SpellsAll ts body) :
    SpellsStmt (⟨.symbol .leftBrace, place⟩ :: ts ++ [⟨.symbol .rightBrace, right⟩])
      (some (.block body place))
  | ifOnly {fs ts : List Token} {condition : Expr} {place : Location} {s : Option Stmt}
    (front : SpellsIf fs condition place) (thenBranch : SpellsStmt ts s) :
    SpellsStmt (fs ++ ts) (some (.ifElse condition s.toList none place))
  | ifElse {fs ts gap us : List Token} {condition : Expr} {place elseWord : Location}
    {s t : Option Stmt} (front : SpellsIf fs condition place) (thenBranch : SpellsStmt ts s)
    (semicolons : Semicolons gap) (elseBranch : SpellsStmt us t) :
    SpellsStmt (fs ++ ts ++ gap ++ ⟨.symbol .elseWord, elseWord⟩ :: us)
      (some (.ifElse condition s.toList (some t.toList) place))
  | forLoop {fs ts : List Token} {header : LoopHeader} {place : Location} {s : Option Stmt}
    (front : SpellsFor fs header place) (body : SpellsStmt ts s) :
    SpellsStmt (fs ++ ts) (some (.forLoop header (bodyOf s) place))

inductive SpellsAll : List Token → List Stmt → Prop where
  | nil : SpellsAll [] []
  | snoc {ts us : List Token} {before : List Stmt} {s : Option Stmt}
    (earlier : SpellsAll ts before) (h : SpellsStmt us s) :
    SpellsAll (ts ++ us) (before ++ s.toList)

end

/-- The front of a rule, with its brace. The rule is placed at the first token. -/
inductive SpellsFront : List Token → Trigger → Location → Prop where
  | atStart {place left : Location} :
    SpellsFront [⟨.symbol .beginWord, place⟩, ⟨.symbol .leftBrace, left⟩] .atStart place
  | atEnd {place left : Location} :
    SpellsFront [⟨.symbol .endWord, place⟩, ⟨.symbol .leftBrace, left⟩] .atEnd place
  | always {place : Location} :
    SpellsFront [⟨.symbol .leftBrace, place⟩] (.eachRecord none) place
  | pattern {first : Token} {ts : List Token} {e : Expr} {left : Location}
    (h : Spells 1 (first :: ts) e) :
    SpellsFront (first :: ts ++ [⟨.symbol .leftBrace, left⟩]) (.eachRecord (some e)) first.place

inductive SpellsProgram : List Token → Program → Prop where
  | nil : SpellsProgram [] []
  | snoc {ts fs us : List Token} {earlier : Program} {trigger : Trigger} {body : List Stmt}
    {place right : Location} (rules : SpellsProgram ts earlier)
    (front : SpellsFront fs trigger place) (h : SpellsAll us body) :
    SpellsProgram (ts ++ fs ++ us ++ [⟨.symbol .rightBrace, right⟩])
      (earlier ++ [⟨trigger, body, place⟩])

/-- The tokens that only delimit. -/
@[simp] def TokenKind.isDelimiter : TokenKind → Bool
  | .symbol .leftParen | .symbol .rightParen | .symbol .leftBrace | .symbol .rightBrace
  | .symbol .semicolon => true
  | _ => false

def undelimited (kinds : List TokenKind) : List TokenKind := kinds.filter fun k => !k.isDelimiter

@[simp] theorem undelimited_nil : undelimited [] = [] := rfl

@[simp] theorem undelimited_append (a b : List TokenKind) :
    undelimited (a ++ b) = undelimited a ++ undelimited b := List.filter_append ..

@[simp] theorem undelimited_cons (k : TokenKind) (ks : List TokenKind) :
    undelimited (k :: ks) = (bif k.isDelimiter then [] else [k]) ++ undelimited ks := by
  rw [undelimited, List.filter_cons]
  cases k.isDelimiter <;> rfl

/-- What a program is made of from left to right: its words, names, literals, operators, dollar
signs and commas. -/
def Program.yield (program : Program) : List TokenKind := undelimited program.render

theorem Spells.undelimited_eq {p : Nat} {ts : List Token} {e : Expr} (h : Spells p ts e) :
    undelimited (ts.map Token.kind) = undelimited e.render := by
  induction h with
  | group inner ih => simp [ih]
  | binary level hl hr ihl ihr => simp [Expr.render, ihl, ihr]
  | unary level inner ih => simp [Expr.render, ih]
  | literal => rfl
  | var => rfl
  | field => rfl

theorem SpellsSimple.undelimited_eq {ts : List Token} {s : Simple} (h : SpellsSimple ts s) :
    undelimited (ts.map Token.kind) = undelimited s.render := by
  cases h with
  | assign value => simp [Simple.render, value.undelimited_eq]
  | stepBefore => rfl
  | stepAfter => rfl

theorem SpellsOptional.undelimited_eq {α : Type} {spells : List Token → α → Prop}
    {render : α → List TokenKind} {ts : List Token} {part : Option α}
    (h : SpellsOptional spells ts part)
    (same : ∀ ts a, spells ts a → undelimited (ts.map Token.kind) = undelimited (render a)) :
    undelimited (ts.map Token.kind) = undelimited (part.elim [] render) := by
  cases h with
  | none => rfl
  | some h => exact same _ _ h

theorem renderArgs_append {args : List Expr} (nonempty : args ≠ []) (e : Expr) :
    renderArgs (args ++ [e]) = renderArgs args ++ .symbol .comma :: e.render := by
  cases args with
  | nil => exact absurd rfl nonempty
  | cons first rest => simp [renderArgs, renderMore]

theorem SpellsArgs.nonempty {ts : List Token} {args : List Expr} (h : SpellsArgs ts args) :
    args ≠ [] := by
  cases h <;> simp

theorem SpellsArgs.undelimited_eq {ts : List Token} {args : List Expr} (h : SpellsArgs ts args) :
    undelimited (ts.map Token.kind) = undelimited (renderArgs args) := by
  induction h with
  | first h => simpa [renderArgs, renderMore] using h.undelimited_eq
  | more before h ih => simp [renderArgs_append before.nonempty, ih, h.undelimited_eq]

theorem SpellsIf.undelimited_eq {ts : List Token} {condition : Expr} {place : Location}
    (h : SpellsIf ts condition place) :
    undelimited (ts.map Token.kind) = .symbol .ifWord :: undelimited condition.render := by
  cases h with
  | mk h => simp [h.undelimited_eq]

theorem SpellsFor.undelimited_eq {ts : List Token} {header : LoopHeader} {place : Location}
    (h : SpellsFor ts header place) :
    undelimited (ts.map Token.kind) = .symbol .forWord :: undelimited header.render := by
  cases h with
  | mk init condition update =>
    simp [LoopHeader.render, init.undelimited_eq fun _ _ => SpellsSimple.undelimited_eq,
      condition.undelimited_eq fun _ _ => Spells.undelimited_eq,
      update.undelimited_eq fun _ _ => SpellsSimple.undelimited_eq]

theorem Semicolons.undelimited_eq {ts : List Token} (h : Semicolons ts) :
    undelimited (ts.map Token.kind) = [] := by
  simp only [undelimited, List.filter_eq_nil_iff, List.mem_map]
  rintro k ⟨token, member, rfl⟩
  rw [h token member]
  decide

theorem renderAll_append (a b : List Stmt) : renderAll (a ++ b) = renderAll a ++ renderAll b := by
  induction a with
  | nil => rfl
  | cons s rest ih => simp [renderAll, ih]

@[simp] theorem undelimited_renderBranch (branch : List Stmt) :
    undelimited (renderBranch branch) = undelimited (renderAll branch) := by
  cases branch with
  | nil => rfl
  | cons s rest => rfl

@[simp] theorem undelimited_renderAll_single (s : Stmt) :
    undelimited (renderAll [s]) = undelimited s.render := by
  simp [renderAll]

@[simp] theorem undelimited_bodyOf (s : Option Stmt) :
    undelimited (renderAll (bodyOf s)) = undelimited (renderAll s.toList) := by
  cases s with
  | none => rfl
  | some s =>
    cases s with
    | block body place =>
      simp [bodyOf, Stmt.render, braced]
    | _ => rfl

mutual

theorem SpellsStmt.undelimited_eq {ts : List Token} {s : Option Stmt} :
    SpellsStmt ts s → undelimited (ts.map Token.kind) = undelimited (renderAll s.toList)
  | .semicolon => rfl
  | .simple h => by simpa [Stmt.render] using h.undelimited_eq
  | .print h => by simp [Stmt.render, h.undelimited_eq]
  | .breakLoop => rfl
  | .block h => by simp [Stmt.render, braced, h.undelimited_eq]
  | .ifOnly front thenBranch => by
    simp [Stmt.render, renderElse, front.undelimited_eq, thenBranch.undelimited_eq]
  | .ifElse front thenBranch semicolons elseBranch => by
    simp [Stmt.render, renderElse, front.undelimited_eq, thenBranch.undelimited_eq,
      semicolons.undelimited_eq, elseBranch.undelimited_eq]
  | .forLoop front body => by
    simp [Stmt.render, braced, front.undelimited_eq, body.undelimited_eq]

theorem SpellsAll.undelimited_eq {ts : List Token} {body : List Stmt} :
    SpellsAll ts body → undelimited (ts.map Token.kind) = undelimited (renderAll body)
  | .nil => rfl
  | .snoc earlier h => by simp [renderAll_append, earlier.undelimited_eq, h.undelimited_eq]

end

theorem SpellsFront.undelimited_eq {ts : List Token} {trigger : Trigger} {place : Location}
    (h : SpellsFront ts trigger place) :
    undelimited (ts.map Token.kind) = undelimited trigger.render := by
  cases h with
  | pattern h =>
    simp only [List.map_append, undelimited_append, h.undelimited_eq]
    simp [Trigger.render]
  | _ => rfl

/-- Tokens of a program have its yield in order, with delimiters between. -/
theorem SpellsProgram.undelimited_eq {ts : List Token} {program : Program}
    (h : SpellsProgram ts program) : undelimited (ts.map Token.kind) = program.yield := by
  unfold Program.yield
  induction h with
  | nil => rfl
  | snoc rules front h ih =>
    simp [Program.render, Rule.render, braced, ih, front.undelimited_eq, h.undelimited_eq]

end FieldScript
