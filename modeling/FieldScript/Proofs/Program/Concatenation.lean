import Mathlib.Control.Monad.Basic
import FieldScript.Proofs.Program.Gathered
import FieldScript.Proofs.Program.Moved
import FieldScript.Session

/-!
# Scripts one behind the other

A script that is a program ends with a rule, and a newline ends any comment behind it. So with a
newline between them, a program and a second script are read as the rules of the first and then
those of the second. What the second one reads as, or why it cannot be read, is moved down by the
lines before it.
-/

namespace FieldScript

def GrammarFault.relocate (f : Location → Location) (fault : GrammarFault) : GrammarFault :=
  ⟨fault.wanted, fault.found.relocate f⟩

def ScriptFault.relocate (f : Location → Location) : ScriptFault → ScriptFault
  | lexical fault => lexical (fault.relocate f)
  | grammar fault => grammar (fault.relocate f)

namespace Reader

variable {f : Location → Location} {front : List Rule}

theorem State.program?_moved {state : State} (begun : state ≠ .start) :
    (state.moved f front).program? =
      state.program?.map fun program => front ++ program.relocate f := by
  cases state with
  | inExpr state purpose => rfl
  | between mode =>
    cases mode with
    | rules earlier =>
      have some_rule : earlier ≠ [] := by
        rintro rfl
        exact begun rfl
      have some_moved : rulesMoved f front earlier ≠ [] := by simp [rulesMoved, some_rule]
      rw [program?_eq_some_iff.mpr ⟨rfl, some_rule⟩]
      exact program?_eq_some_iff.mpr ⟨rfl, some_moved⟩
    | _ => rfl

theorem State.wantedAtEnd_moved (state : State) (eof : Token) :
    (state.moved f front).wantedAtEnd (eof.relocate f) = state.wantedAtEnd eof := by
  rw [wantedAtEnd, wantedAtEnd, take_moved]
  cases state.take eof <;> rfl

/-- What is read from a moved state on, unless nothing has been read when the tokens end. -/
theorem read_moved {state : State} {tokens : List Token} {eof : Token}
    (begun : ∀ final, state.takeAll tokens = .ok final → final ≠ .start) :
    (read (state.moved f front) (tokens.map (Token.relocate f)) (eof.relocate f)).1 =
      ((read state tokens eof).1.map fun program => front ++ program.relocate f).mapError
        (GrammarFault.relocate f) := by
  induction tokens generalizing state with
  | nil =>
    rw [List.map_nil, read, read, State.program?_moved (begun state rfl),
      State.wantedAtEnd_moved]
    cases state.program? <;> rfl
  | cons token tokens ih =>
    rw [List.map_cons, read, read, State.take_moved]
    cases taken : state.take token with
    | error wanted => rfl
    | ok next => exact ih fun final rest => begun final (by rw [State.takeAll_cons _ taken, rest])

theorem State.ne_start_of_takeAll {tokens : List Token} {final : State} (some : tokens ≠ [])
    (taken : State.start.takeAll tokens = .ok final) : final ≠ .start := by
  rintro rfl
  have spelled : State.start.SpelledBy ([] ++ tokens) :=
    spelledBy_takeAll (show State.start.SpelledBy [] from SpellsProgram.nil) taken
  have none_left : SpellsProgram tokens [] := spelled
  generalize rules_eq : ([] : Program) = rules at none_left
  cases none_left with
  | nil => exact some rfl
  | snoc _ _ _ => simp at rules_eq

end Reader

namespace Stream

open Reader

variable {f : Location → Location} {own : List Token} {front : Program}

/-- Behind the tokens of a program, others are read as they are alone. -/
theorem parse_append (accepted : State.start.takeAll own = .ok (.between (.rules front)))
    {others : List Token} (some : others ≠ []) (place : Location) :
    (Stream.mk (own ++ others.map (Token.relocate f)) (f place)).parse.1 =
      ((Stream.mk others place).parse.1.map fun program => front ++ program.relocate f).mapError
        (GrammarFault.relocate f) := by
  have behind : (State.start.moved f front) = .between (.rules front) := by
    simp [State.start, State.moved, Mode.moved, rulesMoved]
  have moved : (read (State.start.moved f front) (others.map (Token.relocate f))
      (Token.relocate f ⟨.eof, place⟩)).1 = _ :=
    read_moved fun final => State.ne_start_of_takeAll some
  rw [behind] at moved
  simp only [parse, read_append _ _ accepted]
  exact moved

end Stream

/-- The first character behind a text and a newline stands in the column it would have alone. -/
theorem Location.behind_newline (text : List Char) :
    behind (text ++ ['\n']) = start.down (text.count '\n' + 1) := by
  rw [behind_snoc]
  simp [step, behind, down, start, Nat.add_comm, Nat.add_left_comm]

theorem exists_own_of_tokenize {script : String} {tokens : List Token}
    (h : tokenize script = .ok tokens) :
    ∃ own eof, tokens = own ++ [⟨.eof, eof⟩] ∧ ∀ token ∈ own, token.kind ≠ .eof := by
  have tiled : Lexer.Tiling [] script.toList tokens := Lexer.Cursor.tiling_of_tokens h rfl
  exact tiled.ends

/-- The tokens of a script, a newline and a second script. -/
theorem tokenize_append_newline {a : String} {own : List Token} {eof : Location}
    (h : tokenize a = .ok (own ++ [⟨.eof, eof⟩])) (b : String) :
    tokenize (a ++ "\n" ++ b) =
      ((tokenize b).map fun tokens =>
        own ++ tokens.map (Token.relocate (Location.down (a.toList.count '\n' + 1)))).mapError
        (LexicalFault.relocate (Location.down (a.toList.count '\n' + 1))) := by
  have tiled : Lexer.Tiling [] a.toList (own ++ [⟨.eof, eof⟩]) :=
    Lexer.Cursor.tiling_of_tokens h rfl
  have whole := Lexer.Cursor.tokens_append_newline tiled b.toList
  have moved := Lexer.Cursor.tokens_down (a.toList.count '\n' + 1) (Lexer.Cursor.ofText b)
  have text_eq : (a ++ "\n" ++ b).toList = a.toList ++ '\n' :: b.toList := by simp
  rw [List.dropLast_concat, List.nil_append, Location.behind_newline] at whole
  rw [tokenize, Lexer.Cursor.ofText, text_eq]
  refine whole.trans ?_
  rw [show (Lexer.Cursor.mk b.toList (Location.start.down _)).tokens = _ from moved]
  change _ = ((Lexer.Cursor.ofText b).tokens.map _).mapError _
  cases (Lexer.Cursor.ofText b).tokens <;> rfl

namespace Program

variable {a b : String} {first : Program}

theorem ofScript_of_tokens {own : List Token} {eof : Location}
    (h : tokenize a = .ok (own ++ [⟨.eof, eof⟩])) (no_eof : ∀ token ∈ own, token.kind ≠ .eof) :
    ofScript a = (Stream.mk own eof).parse.1.mapError .grammar := by
  rw [ofScript, h]
  simp only [Stream.ofTokens_append_eof no_eof]
  cases (Stream.mk own eof).parse.1 <;> rfl

theorem ofScript_append (accepted : ofScript a = .ok first) (b : String) :
    let down := Location.down (a.toList.count '\n' + 1)
    ((∀ place, tokenize b ≠ .ok [⟨.eof, place⟩]) →
      ofScript (a ++ "\n" ++ b) =
        ((ofScript b).map fun second => first ++ second.relocate down).mapError
          (ScriptFault.relocate down)) ∧
    ∀ place, tokenize b = .ok [⟨.eof, place⟩] → ofScript (a ++ "\n" ++ b) = .ok first := by
  intro down
  obtain ⟨tokens, read⟩ : ∃ tokens, tokenize a = .ok tokens := by
    cases read : tokenize a with
    | error fault => simp [ofScript, read] at accepted
    | ok tokens => exact ⟨tokens, rfl⟩
  obtain ⟨own, eof, rfl, no_eof⟩ := exists_own_of_tokenize read
  have parsed : (Stream.mk own eof).parse.1 = .ok first := by
    rw [ofScript_of_tokens read no_eof] at accepted
    cases result : (Stream.mk own eof).parse.1 with
    | error fault => simp [result, Except.mapError] at accepted
    | ok program => simpa [result, Except.mapError] using accepted
  obtain ⟨taken, some_rule⟩ := Stream.parse_eq_ok_iff.mp parsed
  -- The tokens of both scripts, where the second one has tokens.
  have whole (others : List Token) {place : Location}
      (read_b : tokenize b = .ok (others ++ [⟨.eof, place⟩]))
      (others_ne : ∀ token ∈ others, token.kind ≠ .eof) :
      ofScript (a ++ "\n" ++ b) =
        (Stream.mk (own ++ others.map (Token.relocate down)) (down place)).parse.1.mapError
          .grammar := by
    apply ofScript_of_tokens
    · rw [tokenize_append_newline read, read_b]
      simp [Except.map, Except.mapError, Token.relocate, down]
    · simpa [or_imp, forall_and, Token.relocate] using ⟨no_eof, others_ne⟩
  constructor
  · intro has_token
    cases read_b : tokenize b with
    | error fault =>
      rw [ofScript, ofScript, tokenize_append_newline read, read_b]
      rfl
    | ok tokens =>
      obtain ⟨others, place, rfl, others_ne⟩ := exists_own_of_tokenize read_b
      have some_other : others ≠ [] := by
        rintro rfl
        exact has_token place read_b
      rw [whole others read_b others_ne, ofScript_of_tokens read_b others_ne,
        Stream.parse_append taken some_other]
      cases (Stream.mk others place).parse.1 <;> rfl
  · intro place read_b
    have no_other := whole [] read_b (by simp)
    have alone : (Stream.mk own (down place)).parse.1 = .ok first :=
      Stream.parse_eq_ok_iff.mpr ⟨taken, some_rule⟩
    rw [no_other, List.map_nil, List.append_nil, alone]
    rfl

end Program

namespace Session

/-- A script that is accepted, a newline and a second script make the session of the rules of both,
or fail as the second script does; all that is from the second one stands as many lines further
down as there are before it. A second script without a token changes nothing. -/
theorem ofScript_append_newline {a : String} {first : Session} (accepted : ofScript a = .ok first)
    (b : String) :
    let down := Location.down (a.toList.count '\n' + 1)
    ((∀ place, tokenize b ≠ .ok [⟨.eof, place⟩]) →
      ofScript (a ++ "\n" ++ b) =
        ((ofScript b).map fun second =>
          ofProgram (first.program ++ second.program.relocate down)).mapError
          (ScriptFault.relocate down)) ∧
    ∀ place, tokenize b = .ok [⟨.eof, place⟩] → ofScript (a ++ "\n" ++ b) = .ok first := by
  intro down
  rw [ofScript] at accepted
  cases program_eq : Program.ofScript a with
  | error fault => simp [program_eq, Except.map] at accepted
  | ok program =>
    obtain rfl : ofProgram program = first := by
      simpa [program_eq, Except.map] using accepted
    obtain ⟨with_tokens, without⟩ := Program.ofScript_append program_eq b
    constructor
    · intro has_token
      rw [ofScript, ofScript, with_tokens has_token]
      cases Program.ofScript b <;> rfl
    · intro place read_b
      rw [ofScript, without place read_b]
      rfl

/-- The program of `BEGIN { x = "#" } # {` and `{ x++ } # end` on the next line. -/
def commented : Program :=
  [⟨.atStart, [.simple (.assign "x" none (.literal (.text "#") ⟨1, 13⟩) ⟨1, 9⟩)], ⟨1, 1⟩⟩,
    ⟨.eachRecord none, [.simple (.increment "x" .up .after ⟨2, 3⟩)], ⟨2, 1⟩⟩]

theorem ofScript_of_tokenize {script : String} {tokens : List Token} {program : Program}
    (read : tokenize script = .ok tokens)
    (parsed : (Stream.ofTokens tokens).parse.1 = .ok program) :
    ofScript script = .ok (ofProgram program) := by
  rw [ofScript, Program.ofScript, read]
  simp only [parsed]
  rfl

/-- Behind a program whose last line is a comment: a rule on two lines, an illegal character, a
`break` without a semicolon, and another comment. -/
theorem ofScript_append_newline_commented :
    let a := "BEGIN \x7b x = \"#\" \x7d # \x7b\n\x7b x++ \x7d # end"
    ofScript a = .ok (ofProgram commented) ∧
      ofScript (a ++ "\n" ++ " x\n{ y++ }") = .ok (ofProgram (commented ++
        [⟨.eachRecord (some (.var "x" ⟨3, 2⟩)), [.simple (.increment "y" .up .after ⟨4, 3⟩)],
          ⟨3, 2⟩⟩])) ∧
      ofScript (a ++ "\n" ++ "{ }\n @") = .error (.lexical ⟨'@', ⟨4, 2⟩⟩) ∧
      ofScript (a ++ "\n" ++ "\x7b\n\n break \x7d") =
        .error (.grammar ⟨.symbol .semicolon, ⟨.symbol .rightBrace, ⟨5, 8⟩⟩⟩) ∧
      ofScript (a ++ "\n" ++ "# \x7d") = .ok (ofProgram commented) := by
  intro a
  have a_tokens : tokenize a = .ok [⟨.symbol .beginWord, ⟨1, 1⟩⟩, ⟨.symbol .leftBrace, ⟨1, 7⟩⟩,
      ⟨.name "x", ⟨1, 9⟩⟩, ⟨.symbol .assign, ⟨1, 11⟩⟩, ⟨.text "#", ⟨1, 13⟩⟩,
      ⟨.symbol .rightBrace, ⟨1, 17⟩⟩, ⟨.symbol .leftBrace, ⟨2, 1⟩⟩, ⟨.name "x", ⟨2, 3⟩⟩,
      ⟨.symbol .plusPlus, ⟨2, 4⟩⟩, ⟨.symbol .rightBrace, ⟨2, 7⟩⟩, ⟨.eof, ⟨2, 14⟩⟩] := by
    decide +kernel
  have rule_tokens : tokenize " x\n{ y++ }" = .ok [⟨.name "x", ⟨1, 2⟩⟩,
      ⟨.symbol .leftBrace, ⟨2, 1⟩⟩, ⟨.name "y", ⟨2, 3⟩⟩, ⟨.symbol .plusPlus, ⟨2, 4⟩⟩,
      ⟨.symbol .rightBrace, ⟨2, 7⟩⟩, ⟨.eof, ⟨2, 8⟩⟩] := by decide +kernel
  have fault_tokens : tokenize "{ }\n @" = .error ⟨'@', ⟨2, 2⟩⟩ := by decide +kernel
  have break_tokens : tokenize "\x7b\n\n break \x7d" = .ok [⟨.symbol .leftBrace, ⟨1, 1⟩⟩,
      ⟨.symbol .breakWord, ⟨3, 2⟩⟩, ⟨.symbol .rightBrace, ⟨3, 8⟩⟩, ⟨.eof, ⟨3, 9⟩⟩] := by
    decide +kernel
  have accepted : ofScript a = .ok (ofProgram commented) := ofScript_of_tokenize a_tokens rfl
  have lines : a.toList.count '\n' = 1 := by decide +kernel
  have behind := ofScript_append_newline accepted
  rw [lines] at behind
  refine ⟨accepted, ?_, ?_, ?_, (behind _).2 ⟨1, 4⟩ (by decide +kernel)⟩
  · rw [(behind _).1 (by simp [rule_tokens]), ofScript_of_tokenize rule_tokens rfl]
    rfl
  · rw [(behind _).1 (by simp [fault_tokens]), ofScript, Program.ofScript, fault_tokens]
    rfl
  · rw [(behind _).1 (by simp [break_tokens]), ofScript, Program.ofScript, break_tokens]
    rfl

end Session

end FieldScript
