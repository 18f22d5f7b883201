import FieldScript.Program.Parse
import FieldScript.Proofs.Program.Completion

/-!
# The place of a fault

A stream ends at the first end of script in its tokens, which is put behind them where there is
none. Main statement: parsing fails at the earliest token with which the tokens so far are no longer
the beginning of a program, whatever comes behind it.
-/

namespace FieldScript.Stream

variable {tokens : List Token}

theorem ofTokens_append (h : ∀ token ∈ tokens, token.kind ≠ .eof) (more : List Token) :
    (ofTokens (tokens ++ more)).tokens = tokens ++ (ofTokens more).tokens := by
  simp only [ofTokens]
  exact List.takeWhile_append_of_pos fun token ht => by simpa using h token ht

theorem ofTokens_append_eof (h : ∀ token ∈ tokens, token.kind ≠ .eof) {eof : Token}
    (at_end : eof.kind = .eof) (more : List Token) :
    ofTokens (tokens ++ eof :: more) = ⟨tokens, eof.place⟩ := by
  have none_before : tokens.find? (fun token => decide (token.kind = .eof)) = none := by
    simpa using h
  have cut : (ofTokens (tokens ++ eof :: more)).tokens = tokens := by
    rw [ofTokens_append h]
    simp [ofTokens, at_end]
  have place_eq : (ofTokens (tokens ++ eof :: more)).eof = eof.place := by
    simp [ofTokens, List.find?_append, none_before, at_end]
  calc
    ofTokens (tokens ++ eof :: more) =
        ⟨(ofTokens (tokens ++ eof :: more)).tokens, (ofTokens (tokens ++ eof :: more)).eof⟩ := rfl
    _ = ⟨tokens, eof.place⟩ := by rw [cut, place_eq]

theorem ofTokens_of_no_eof (h : ∀ token ∈ tokens, token.kind ≠ .eof) :
    (ofTokens tokens).tokens = tokens := by
  simpa [ofTokens] using ofTokens_append h []

theorem withEnd_of_no_eof (h : ∀ token ∈ tokens, token.kind ≠ .eof) :
    withEnd tokens = tokens ++ [⟨.eof, (ofTokens tokens).eof⟩] := by
  have none_found : tokens.find? (fun token => decide (token.kind = .eof)) = none := by
    simpa using h
  cases last_eq : tokens.getLast? with
  | none =>
    rw [List.getLast?_eq_none_iff.mp last_eq]
    rfl
  | some last =>
    have last_ne := h last (List.mem_of_getLast? last_eq)
    simp [withEnd, ofTokens, none_found, last_eq, last_ne]

theorem no_eof_or_first (tokens : List Token) : (∀ token ∈ tokens, token.kind ≠ .eof) ∨
    ∃ before eof after, tokens = before ++ eof :: after ∧ eof.kind = .eof ∧
      ∀ token ∈ before, token.kind ≠ .eof := by
  cases found : tokens.find? fun token => decide (token.kind = .eof) with
  | none => exact .inl (by simpa using found)
  | some eof =>
    obtain ⟨at_end, before, after, tokens_eq, before_ne⟩ := List.find?_eq_some_iff_append.mp found
    exact .inr ⟨before, eof, after, tokens_eq, by simpa using at_end, by simpa using before_ne⟩

theorem ofTokens_withEnd (tokens : List Token) : ofTokens (withEnd tokens) = ofTokens tokens := by
  rcases no_eof_or_first tokens with h | ⟨before, eof, after, rfl, at_end, before_ne⟩
  · calc
      ofTokens (withEnd tokens) = ⟨tokens, (ofTokens tokens).eof⟩ := by
        rw [withEnd_of_no_eof h, ofTokens_append_eof h rfl]
      _ = ⟨(ofTokens tokens).tokens, (ofTokens tokens).eof⟩ := by rw [ofTokens_of_no_eof h]
      _ = ofTokens tokens := rfl
  · rw [ofTokens_append_eof before_ne at_end, withEnd]
    split
    · split
      · rw [ofTokens_append_eof before_ne at_end]
      · rw [List.append_assoc, List.cons_append, ofTokens_append_eof before_ne at_end]
    · next last_eq => simp at last_eq

/-- A token that is wrong after others is wrong there whatever follows. -/
theorem parse_of_wrong {mid : Reader.State} {wrong : Token} {wanted : Wanted}
    (before_ne : ∀ token ∈ tokens, token.kind ≠ .eof)
    (taken : Reader.State.start.takeAll tokens = .ok mid) (refused : mid.take wrong = .error wanted)
    (incomplete : wrong.kind = .eof → mid.program? = none) (more : List Token) :
    (ofTokens (tokens ++ wrong :: more)).parse.1 = .error ⟨wanted, wrong⟩ := by
  by_cases at_end : wrong.kind = .eof
  · have whole := Reader.read_append [] wrong taken
    have wrong_eq : (⟨.eof, wrong.place⟩ : Token) = wrong := by rw [← at_end]
    rw [List.append_nil] at whole
    simp only [parse, ofTokens_append_eof before_ne at_end, wrong_eq, whole, Reader.read,
      incomplete at_end, Reader.State.wantedAtEnd, refused]
  · have before_wrong : ∀ token ∈ tokens ++ [wrong], token.kind ≠ .eof := by
      simpa [or_imp, forall_and] using ⟨before_ne, at_end⟩
    have cut := ofTokens_append before_wrong more
    rw [List.append_assoc, List.singleton_append] at cut
    rw [parse, cut, List.append_assoc, Reader.read_append _ _ taken, List.singleton_append,
      Reader.read, refused]

theorem wrong_of_parse (no_eof : ∀ token ∈ tokens, token.kind ≠ .eof) {fault : GrammarFault}
    {rest : Stream} (failed : (ofTokens tokens).parse = (.error fault, rest)) :
    ∃ before behind mid, rest = ⟨tokens.drop before.length, (ofTokens tokens).eof⟩ ∧
      tokens.take before.length = before ∧ before.length ≤ tokens.length ∧
      withEnd tokens = before ++ fault.found :: behind ∧
      Reader.State.start.takeAll before = .ok mid ∧ mid.take fault.found = .error fault.wanted ∧
      (fault.found.kind = .eof → mid.program? = none) := by
  obtain ⟨left, place⟩ := rest
  simp only [parse, Prod.mk.injEq, mk.injEq] at failed
  obtain ⟨result_eq, left_eq, place_eq⟩ := failed
  rw [ofTokens_of_no_eof no_eof] at result_eq left_eq
  rcases Reader.wrong_of_read rfl (Prod.ext result_eq left_eq) with
    ⟨before, mid, tokens_eq, taken, found, refused, incomplete⟩
  obtain ⟨behind, behind_eq⟩ := List.head?_eq_some_iff.mp found
  refine ⟨before, behind, mid, ?_, ?_, ?_, ?_, taken, refused, ?_⟩
  · rw [tokens_eq, List.drop_left, ← tokens_eq, place_eq]
  · rw [tokens_eq, List.take_left]
  · simp [tokens_eq]
  · rw [withEnd_of_no_eof no_eof, ← behind_eq, ← List.append_assoc, ← tokens_eq]
  · intro at_end
    apply incomplete
    cases left with
    | nil => rfl
    | cons token more =>
      rw [List.cons_append, List.cons.injEq] at behind_eq
      exact absurd (behind_eq.1 ▸ at_end) (no_eof token (by simp [tokens_eq]))

/-- Where parsing fails, it stands at the token that is found wrong. Every other script with the
same tokens up to that one has the same fault, and what stands before it can be completed to a
program. -/
theorem parse_error_at_earliest (tokens : List Token)
    (no_eof : ∀ token ∈ tokens, token.kind ≠ .eof) {fault : GrammarFault} {rest : Stream}
    (failed : (ofTokens tokens).parse = (.error fault, rest)) :
    ∃ k ≤ tokens.length, rest = ⟨tokens.drop k, (ofTokens tokens).eof⟩ ∧
      (withEnd tokens)[k]? = some fault.found ∧
      (∀ others, (withEnd others).take (k + 1) = (withEnd tokens).take (k + 1) →
        (ofTokens others).parse.1 = .error fault) ∧
      ∃ more program, (∀ token ∈ more, token.kind ≠ .eof) ∧
        (ofTokens (tokens.take k ++ more)).parse.1 = .ok program := by
  rcases wrong_of_parse no_eof failed with
    ⟨before, behind, mid, rest_eq, before_eq, length_le, end_eq, taken, refused, incomplete⟩
  have before_ne : ∀ token ∈ before, token.kind ≠ .eof := by
    intro token member
    exact no_eof token (List.mem_of_mem_take (before_eq.symm ▸ member))
  refine ⟨before.length, length_le, rest_eq, by simp [end_eq], ?_, ?_⟩
  · intro others same
    have front : (withEnd others).take (before.length + 1) = before ++ [fault.found] := by
      rw [same, end_eq, List.take_append, List.take_of_length_le (Nat.le_succ _)]
      simp
    have others_eq : withEnd others =
        before ++ fault.found :: (withEnd others).drop (before.length + 1) := by
      conv => lhs; rw [← List.take_append_drop (before.length + 1) (withEnd others), front]
      rw [List.append_assoc, List.singleton_append]
    rw [← ofTokens_withEnd, others_eq]
    exact parse_of_wrong before_ne taken refused incomplete _
  · obtain ⟨more, final, program, more_ne, completed, complete⟩ := Reader.viable mid
    refine ⟨more, program, more_ne, ?_⟩
    have all_ne : ∀ token ∈ before ++ more, token.kind ≠ .eof := by
      simpa [or_imp, forall_and] using ⟨before_ne, more_ne⟩
    have taken_all : Reader.State.start.takeAll (before ++ more) = .ok final := by
      rw [Reader.State.takeAll_append _ taken, completed]
    rw [before_eq, parse, ofTokens_of_no_eof all_ne, Reader.read_of_takeAll _ taken_all complete]

/-- The tokens of `if (a) ;;` in an open rule, and a stray parenthesis. -/
def strayAfterBranch : List Token :=
  [⟨.symbol .leftBrace, ⟨1, 1⟩⟩, ⟨.symbol .ifWord, ⟨1, 3⟩⟩, ⟨.symbol .leftParen, ⟨1, 6⟩⟩,
    ⟨.name "a", ⟨1, 7⟩⟩, ⟨.symbol .rightParen, ⟨1, 8⟩⟩, ⟨.symbol .semicolon, ⟨1, 10⟩⟩,
    ⟨.symbol .semicolon, ⟨1, 11⟩⟩, ⟨.symbol .rightParen, ⟨2, 1⟩⟩]

/-- The semicolons that might stand before `else` are passed, and the parenthesis is at fault. -/
theorem parse_error_after_branch :
    (∀ token ∈ strayAfterBranch, token.kind ≠ .eof) ∧
      (ofTokens strayAfterBranch).parse = (.error ⟨.other, ⟨.symbol .rightParen, ⟨2, 1⟩⟩⟩,
        ⟨[⟨.symbol .rightParen, ⟨2, 1⟩⟩], ⟨2, 1⟩⟩) ∧
      ∃ k ≤ strayAfterBranch.length,
        (⟨[⟨.symbol .rightParen, ⟨2, 1⟩⟩], ⟨2, 1⟩⟩ : Stream) =
          ⟨strayAfterBranch.drop k, (ofTokens strayAfterBranch).eof⟩ ∧
        (withEnd strayAfterBranch)[k]? = some ⟨.symbol .rightParen, ⟨2, 1⟩⟩ ∧
        (∀ others, (withEnd others).take (k + 1) = (withEnd strayAfterBranch).take (k + 1) →
          (ofTokens others).parse.1 = .error ⟨.other, ⟨.symbol .rightParen, ⟨2, 1⟩⟩⟩) ∧
        ∃ more program, (∀ token ∈ more, token.kind ≠ .eof) ∧
          (ofTokens (strayAfterBranch.take k ++ more)).parse.1 = .ok program := by
  have no_eof : ∀ token ∈ strayAfterBranch, token.kind ≠ .eof := by simp [strayAfterBranch]
  have failed : (ofTokens strayAfterBranch).parse =
      (.error ⟨.other, ⟨.symbol .rightParen, ⟨2, 1⟩⟩⟩,
        ⟨[⟨.symbol .rightParen, ⟨2, 1⟩⟩], ⟨2, 1⟩⟩) := by rfl
  exact ⟨no_eof, failed, parse_error_at_earliest strayAfterBranch no_eof failed⟩

end FieldScript.Stream
