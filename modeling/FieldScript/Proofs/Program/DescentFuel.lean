import FieldScript.Proofs.Program.DescentRules

/-!
# Fuel of a parser by descent

A parser that is not cut off does the same with one more step of fuel. The parser that is cut off is
continued by every other one, and whatever is made of parsers is continued by the same made of what
continues them.
-/

namespace FieldScript

namespace Descent

variable {α β : Type}

/-- Where the first parser is not cut off, the second one does the same. -/
def ContinuedBy (p q : Parser α) : Prop :=
  ∀ tokens cursor outcome, p tokens cursor = some outcome → q tokens cursor = some outcome

namespace ContinuedBy

variable {p q : Parser α} {f g : α → Parser β}

theorem refl : ContinuedBy p p := fun _ _ _ same => same

theorem ofCutOff : ContinuedBy cutOff q := fun _ _ _ none => nomatch none

theorem bind (first : ContinuedBy p q) (rest : ∀ a, ContinuedBy (f a) (g a)) :
    ContinuedBy (p >>= f) (q >>= g) := by
  intro tokens cursor outcome ran
  rw [run_bind] at ran ⊢
  obtain ⟨⟨result, after⟩, began, ended⟩ := Option.bind_eq_some_iff.mp ran
  rw [first _ _ _ began, Option.bind_some]
  cases result with
  | ok a => exact rest a _ _ _ ended
  | error halt => exact ended

theorem andThen (rest : ∀ a, ContinuedBy (f a) (g a)) : ContinuedBy (p >>= f) (p >>= g) :=
  refl.bind rest

theorem followed (first : ContinuedBy p q) : ContinuedBy (p >>= f) (q >>= f) :=
  first.bind fun _ => refl

theorem ite {b : Prop} [Decidable b] {p' q' : Parser α} (yes : ContinuedBy p q)
    (no : ContinuedBy p' q') : ContinuedBy (if b then p else p') (if b then q else q') := by
  by_cases holds : b
  · rwa [if_pos holds, if_pos holds]
  · rwa [if_neg holds, if_neg holds]

end ContinuedBy

variable {fuel : Nat}

section Expressions

variable {operand operand' inner inner' : Parser Expr}

theorem parseOperators_continued {level : Level} {left : Expr}
    (continued : ContinuedBy operand operand') :
    ContinuedBy (parseOperators level operand fuel left)
      (parseOperators level operand' (fuel + 1) left) := by
  induction fuel generalizing left with
  | zero => exact .ofCutOff
  | succ fuel ih =>
    apply ContinuedBy.andThen
    intro token
    cases level.operator? token with
    | none => exact .refl
    | some op =>
      apply ContinuedBy.andThen
      intro _
      exact continued.bind fun _ => ih

theorem parseLevels_continued (continued : ContinuedBy operand operand') :
    ContinuedBy (parseLevels fuel operand) (parseLevels (fuel + 1) operand') := by
  have step (level : Level) {next next' : Parser Expr} (h : ContinuedBy next next') :
      ContinuedBy (parseLevel fuel level next) (parseLevel (fuel + 1) level next') :=
    h.bind fun _ => parseOperators_continued h
  exact step .or (step .and (step .equality (step .comparison (step .additive
    (step .multiplicative continued)))))

theorem parsePrimary_continued (continued : ContinuedBy inner inner') :
    ContinuedBy (parsePrimary inner) (parsePrimary inner') := by
  apply ContinuedBy.andThen
  intro token
  cases operand? token with
  | some e => exact .refl
  | none =>
    apply ContinuedBy.andThen
    intro _
    apply ContinuedBy.ite .refl
    apply ContinuedBy.andThen
    intro _
    exact .ite continued.followed .refl

theorem parseNegation_continued (operands : ContinuedBy operand operand')
    (inners : ContinuedBy inner inner') :
    ContinuedBy (parseNegation operand inner) (parseNegation operand' inner') := by
  apply ContinuedBy.andThen
  intro token
  apply ContinuedBy.andThen
  intro _
  exact .ite operands.followed (parsePrimary_continued inners)

theorem parseNot_continued : ContinuedBy (parseNot fuel) (parseNot (fuel + 1)) := by
  induction fuel with
  | zero => exact .ofCutOff
  | succ fuel ih =>
    apply ContinuedBy.andThen
    intro token
    apply ContinuedBy.andThen
    intro _
    apply ContinuedBy.ite ih.followed
    -- What stands in parentheses is read by levels over this parser itself.
    exact parseNegation_continued ih (parseLevels_continued ih)

theorem parseExpr_continued : ContinuedBy (parseExpr fuel) (parseExpr (fuel + 1)) :=
  parseLevels_continued parseNot_continued

end Expressions

section Statements

theorem parseUpdate_continued {x : String} {place : Location} :
    ContinuedBy (parseUpdate fuel x place) (parseUpdate (fuel + 1) x place) := by
  apply ContinuedBy.andThen
  intro step
  cases step with
  | some step => exact .refl
  | none =>
    apply ContinuedBy.andThen
    intro token
    cases Reader.assignment? token.kind with
    | none => exact .refl
    | some op =>
      apply ContinuedBy.andThen
      intro _
      exact parseExpr_continued.followed

theorem parseSimple_continued : ContinuedBy (parseSimple fuel) (parseSimple (fuel + 1)) := by
  apply ContinuedBy.andThen
  intro token
  apply ContinuedBy.andThen
  intro step
  cases step with
  | some step => exact .refl
  | none =>
    apply ContinuedBy.andThen
    intro x
    exact parseUpdate_continued

theorem parseArgs_continued {before : List Expr} :
    ContinuedBy (parseArgs fuel before) (parseArgs (fuel + 1) before) := by
  induction fuel generalizing before with
  | zero => exact .ofCutOff
  | succ fuel ih =>
    apply ContinuedBy.andThen
    intro _
    exact .ite (parseExpr_continued.bind fun _ => ih) .refl

theorem parsePrint_continued {place : Location} :
    ContinuedBy (parsePrint fuel place) (parsePrint (fuel + 1) place) := by
  apply ContinuedBy.andThen
  intro _
  apply parseExpr_continued.bind
  intro first
  exact parseArgs_continued.followed

theorem skipSemicolons_continued :
    ContinuedBy (skipSemicolons fuel) (skipSemicolons (fuel + 1)) := by
  induction fuel with
  | zero => exact .ofCutOff
  | succ fuel ih =>
    apply ContinuedBy.andThen
    intro _
    exact .ite ih .refl

theorem acceptElse_continued : ContinuedBy (acceptElse fuel) (acceptElse (fuel + 1)) := by
  apply ContinuedBy.andThen
  intro cursor
  exact skipSemicolons_continued.followed

theorem parseUpTo_continued {s : Symbol} {part part' : Parser α}
    (continued : ContinuedBy part part') :
    ContinuedBy (parseUpTo s part) (parseUpTo s part') := by
  apply ContinuedBy.followed
  apply ContinuedBy.andThen
  intro _
  exact .ite .refl continued.followed

theorem parseHeader_continued : ContinuedBy (parseHeader fuel) (parseHeader (fuel + 1)) := by
  apply ContinuedBy.andThen
  intro _
  apply (parseUpTo_continued parseSimple_continued).bind
  intro init
  apply (parseUpTo_continued parseExpr_continued).bind
  intro condition
  exact (parseUpTo_continued parseSimple_continued).followed

variable {statement statement' : Parser (Option Stmt)}

theorem parseStatements_continued {before : List Stmt}
    (continued : ContinuedBy statement statement') :
    ContinuedBy (parseStatements statement fuel before)
      (parseStatements statement' (fuel + 1) before) := by
  induction fuel generalizing before with
  | zero => exact .ofCutOff
  | succ fuel ih =>
    apply ContinuedBy.andThen
    intro _
    apply ContinuedBy.ite .refl
    apply ContinuedBy.andThen
    intro _
    apply ContinuedBy.ite .refl
    exact continued.bind fun _ => ih

theorem parseBraced_continued (continued : ContinuedBy statement statement') :
    ContinuedBy (parseBraced statement fuel) (parseBraced statement' (fuel + 1)) := by
  apply ContinuedBy.andThen
  intro _
  exact (parseStatements_continued continued).followed

theorem parseIf_continued {place : Location} (continued : ContinuedBy statement statement') :
    ContinuedBy (parseIf statement fuel place) (parseIf statement' (fuel + 1) place) := by
  apply ContinuedBy.andThen
  intro _
  apply ContinuedBy.andThen
  intro _
  apply parseExpr_continued.bind
  intro condition
  apply ContinuedBy.andThen
  intro _
  apply continued.bind
  intro branch
  apply acceptElse_continued.bind
  intro _
  exact .ite continued.followed .refl

theorem parseFor_continued {place : Location} (continued : ContinuedBy statement statement') :
    ContinuedBy (parseFor statement fuel place) (parseFor statement' (fuel + 1) place) := by
  apply ContinuedBy.andThen
  intro _
  apply parseHeader_continued.bind
  intro header
  exact continued.followed

theorem parseStatement_continued :
    ContinuedBy (parseStatement fuel) (parseStatement (fuel + 1)) := by
  induction fuel with
  | zero => exact .ofCutOff
  | succ fuel ih =>
    apply ContinuedBy.andThen
    intro token
    split
    · exact .refl
    · exact (parseBraced_continued ih).followed
    · exact (parseIf_continued ih).followed
    · exact (parseFor_continued ih).followed
    · exact .refl
    · exact parsePrint_continued.followed
    · exact parseSimple_continued.followed
    · exact parseSimple_continued.followed
    · exact parseSimple_continued.followed
    · exact .refl

end Statements

section Programs

theorem parseRule_continued : ContinuedBy (parseRule fuel) (parseRule (fuel + 1)) := by
  have braced : ContinuedBy (parseBraced (parseStatement fuel) fuel)
      (parseBraced (parseStatement (fuel + 1)) (fuel + 1)) :=
    parseBraced_continued parseStatement_continued
  apply ContinuedBy.andThen
  intro token
  apply ContinuedBy.andThen
  intro _
  apply ContinuedBy.ite braced.followed
  apply ContinuedBy.andThen
  intro _
  apply ContinuedBy.ite braced.followed
  apply ContinuedBy.bind
  · apply ContinuedBy.andThen
    intro _
    exact .ite .refl parseExpr_continued.followed
  · intro pattern
    exact braced.followed

theorem parseRules_continued {rule rule' : Parser Rule} {before : List Rule}
    (continued : ContinuedBy rule rule') :
    ContinuedBy (parseRules rule fuel before) (parseRules rule' (fuel + 1) before) := by
  induction fuel generalizing before with
  | zero => exact .ofCutOff
  | succ fuel ih =>
    apply continued.bind
    intro next
    apply ContinuedBy.andThen
    intro _
    exact .ite .refl ih

theorem callAt_succ {tokens : List Token} {start : Nat} {call : Call}
    (ended : callAt fuel tokens start = some call) :
    callAt (fuel + 1) tokens start = some call := by
  obtain ⟨outcome, ran, told⟩ := Option.bind_eq_some_iff.mp ended
  have continued : ContinuedBy (parseProgram fuel) (parseProgram (fuel + 1)) :=
    parseRules_continued parseRule_continued
  exact Option.bind_eq_some_iff.mpr ⟨outcome, continued _ _ _ ran, told⟩

theorem callsAt_succ {tokens : List Token} {n start : Nat} {cs : List Call}
    (ended : callsAt fuel tokens n start = some cs) :
    callsAt (fuel + 1) tokens n start = some cs := by
  induction n generalizing start cs with
  | zero => exact ended
  | succ n ih =>
    obtain ⟨first, began, went_on⟩ := Option.bind_eq_some_iff.mp ended
    obtain ⟨others, later, cs_eq⟩ := Option.bind_eq_some_iff.mp went_on
    exact Option.bind_eq_some_iff.mpr ⟨first, callAt_succ began,
      Option.bind_eq_some_iff.mpr ⟨others, ih later, cs_eq⟩⟩

/-- Calls that are not cut off do not depend on how much fuel there is. -/
theorem callsAt_of_fuel_le {tokens : List Token} {n start more : Nat} {cs : List Call}
    (le : fuel ≤ more) (ended : callsAt fuel tokens n start = some cs) :
    callsAt more tokens n start = some cs := by
  induction le with
  | refl => exact ended
  | step _ ih => exact callsAt_succ ih

end Programs

end Descent

end FieldScript
