import FieldScript.Proofs.Program.DescentFuel
import FieldScript.Proofs.Program.DescentStmt

/-!
# Calls of one parser

A parser may be called again after a program or a fault, and goes on from where its cursor stands.
Main statement: no call is cut off that has fuel for each token, and it looks at tokens up to the
first end of the script only. It gives what the stream of the tokens gives, and what stands behind
that end makes no difference.
-/

namespace FieldScript

namespace Stream

/-- The first end of script among the tokens with their end behind them. -/
theorem withEnd_eq (tokens : List Token) : ∃ more, withEnd tokens =
    (ofTokens tokens).tokens ++ ⟨.eof, (ofTokens tokens).eof⟩ :: more := by
  rcases no_eof_or_first tokens with h | ⟨before, eof, after, rfl, at_end, before_ne⟩
  · exact ⟨[], by rw [withEnd_of_no_eof h, ofTokens_of_no_eof h]⟩
  · have eof_eq : (⟨.eof, eof.place⟩ : Token) = eof := by rw [← at_end]
    rw [ofTokens_append_eof before_ne at_end, eof_eq, withEnd]
    split
    · split
      · exact ⟨after, rfl⟩
      · exact ⟨_, by rw [List.append_assoc, List.cons_append]⟩
    · next last_eq => simp at last_eq

theorem ofTokens_no_eof (tokens : List Token) :
    ∀ token ∈ (ofTokens tokens).tokens, token.kind ≠ .eof := by
  intro token member
  have kept := List.all_eq_true.mp List.all_takeWhile token member
  simpa using kept

end Stream

open Reader (State)

def Script.ofTokens (tokens : List Token) : Script where
  tokens := (Stream.ofTokens tokens).tokens
  eof := ⟨.eof, (Stream.ofTokens tokens).eof⟩
  no_eof := Stream.ofTokens_no_eof tokens
  at_end := rfl

namespace Script

variable (script : Script) {k : Nat}

theorem head?_drop (le : k ≤ script.last) :
    (script.tokens.drop k ++ [script.eof]).head? = some (script.token k) := by
  by_cases lt : k < script.last
  · rw [script.drop_of_lt lt]
    rfl
  · have k_eq : k = script.last := Nat.le_antisymm le (Nat.le_of_not_lt lt)
    rw [k_eq, script.drop_last, script.token_last]
    rfl

theorem eq_append_of_take {others more : List Token}
    (same : others.take (script.last + 1) =
      (script.tokens ++ script.eof :: more).take (script.last + 1)) :
    ∃ behind, others = script.tokens ++ script.eof :: behind := by
  have front : others.take (script.last + 1) = script.tokens ++ [script.eof] := by
    rw [same, List.append_cons]
    exact List.take_left' (by simp [last])
  refine ⟨others.drop (script.last + 1), ?_⟩
  calc
    others = others.take (script.last + 1) ++ others.drop (script.last + 1) :=
      (List.take_append_drop _ _).symm
    _ = script.tokens ++ script.eof :: others.drop (script.last + 1) := by
      rw [front, List.append_assoc, List.singleton_append]

/-- Where rules end with the script, the program is whole. -/
theorem reading_rules_last {program : Program} (some_rule : program ≠ []) :
    script.reading (.between (.rules program)) script.last = (.ok program, []) := by
  rw [reading, script.drop_last, Reader.read,
    State.program?_eq_some_iff.mpr ⟨rfl, some_rule⟩]

theorem reading_start_last :
    script.reading .start script.last = (.error ⟨.other, script.eof⟩, []) := by
  have refused : State.start.take (script.token script.last) = .error .other := by
    rw [script.token_last]
    simp [State.start, State.take, Reader.Mode.take, Reader.beginRule, script.at_end,
      Reader.beginExpr_eof]
  rw [script.reading_of_wrong (Nat.le_refl _) rfl refused, script.token_last, script.drop_last]

end Script

namespace Descent

/-- A call keeps to the tokens up to the first end of a script, whose position is `last`. It looks
at tokens only, never goes over that end and does not fall back behind its start. With a program it
stops at the end, with a fault at the token that is wrong, and from the end it does not move. -/
structure Call.WithinEnd (tokens : List Token) (last : Nat) (call : Call) : Prop where
  has_token : call.result ≠ .error .outside
  passed : ∀ k ∈ call.passed, call.start ≤ k ∧ k ≤ last
  forward : call.start ≤ call.stop
  stop_le : call.stop ≤ last
  complete : ∀ program, call.result = .ok program → call.stop = last
  fault_at : ∀ fault, call.result = .error (.wrong fault) → tokens[call.stop]? = some fault.found
  at_end : call.start = last → call.stop = last ∧
    ∃ eof, tokens[last]? = some eof ∧ call.result = .error (.wrong ⟨.other, eof⟩)

variable (script : Script) {k : Nat}

/-- A call gives what reading from its start gives, and stops where that stops. -/
theorem reading_of_tells {result : Except Halt Program} {stop : Cursor}
    (tells : Tells script .start k (fun program => .between (.rules program))
      (fun program d => d.position = script.last ∧ program ≠ []) stop result) :
    ∃ read, result = read.mapError .wrong ∧
      script.reading .start k = (read, script.tokens.drop stop.position) ∧
      ∀ program, read = .ok program → stop.position = script.last := by
  cases tells with
  | @ok program same holds =>
    obtain ⟨at_last, some_rule⟩ := holds
    refine ⟨.ok program, rfl, ?_, fun _ _ => at_last⟩
    rw [same, at_last, script.reading_rules_last some_rule, script.drop_last]
  | @wrong fault failed => exact ⟨.error fault, rfl, failed, nofun⟩

theorem callAt_of_le {fuel : Nat} (enough : script.last < fuel) (le : k ≤ script.last) : ∃ call,
    (∀ behind, callAt fuel (script.tokens ++ script.eof :: behind) k = some call) ∧
      (∀ behind, call.WithinEnd (script.tokens ++ script.eof :: behind) script.last) ∧
      call.result = (script.reading .start k).1.mapError .wrong ∧
      (script.reading .start k).2 = script.tokens.drop call.stop := by
  have further : script.last < k + fuel := Nat.lt_add_left k enough
  obtain ⟨result, stop, runs, goes, tells⟩ := parseProgram_follows (c := ⟨k, []⟩) further le
  obtain ⟨read, rfl, reading_eq, complete⟩ := reading_of_tells script tells
  refine ⟨⟨k, read.mapError .wrong, stop.passed, stop.position⟩, fun behind => ?_, fun behind => ?_,
    ?_, ?_⟩
  · rw [callAt, runs]
    rfl
  · constructor
    · cases read <;> nofun
    · exact fun i member => (goes.passed i member).resolve_left nofun
    · exact goes.forward
    · exact goes.le_last
    · intro program result_eq
      cases read with
      | ok read => exact complete read rfl
      | error fault => cases result_eq
    · intro fault result_eq
      cases read with
      | ok program => cases result_eq
      | error found =>
        obtain rfl : found = fault := Halt.wrong.inj (Except.error.inj result_eq)
        obtain ⟨_, _, _, _, head_eq, _⟩ := Reader.wrong_of_read script.at_end reading_eq
        rw [script.lookup goes.le_last, ← head_eq, script.head?_drop goes.le_last]
    · rintro rfl
      refine ⟨Nat.le_antisymm goes.le_last goes.forward, script.eof, ?_, ?_⟩
      · rw [script.lookup (Nat.le_refl _), script.token_last]
      · rw [script.reading_start_last] at reading_eq
        obtain rfl := (Prod.ext_iff.mp reading_eq).1
        rfl
  · rw [reading_eq]
  · rw [reading_eq]

theorem callsAt_of_le {fuel : Nat} (enough : script.last < fuel) (n : Nat)
    (le : k ≤ script.last) : ∃ cs,
    (∀ behind, callsAt fuel (script.tokens ++ script.eof :: behind) n k = some cs) ∧
      cs.length = n ∧
      (∀ behind, ∀ call ∈ cs,
        call.WithinEnd (script.tokens ++ script.eof :: behind) script.last) ∧
      cs.map Call.result =
        (Stream.parseTimes n ⟨script.tokens.drop k, script.eof.place⟩).map (.mapError .wrong) := by
  induction n generalizing k with
  | zero => exact ⟨[], fun _ => rfl, rfl, fun _ _ => nofun, rfl⟩
  | succ n ih =>
    obtain ⟨call, runs, within, result_eq, rest_eq⟩ := callAt_of_le script enough le
    obtain ⟨cs, later_runs, length_eq, later_within, results_eq⟩ := ih (within []).stop_le
    have eof_eq : (⟨.eof, script.eof.place⟩ : Token) = script.eof := by rw [← script.at_end]
    refine ⟨call :: cs, fun behind => ?_, by rw [List.length_cons, length_eq], ?_, ?_⟩
    · rw [callsAt, runs, Option.bind_eq_bind, Option.bind_some, later_runs]
      rfl
    · intro behind other member
      obtain rfl | member := List.mem_cons.mp member
      · exact within behind
      · exact later_within behind other member
    · rw [List.map_cons, result_eq, results_eq, Stream.parseTimes, Stream.parse, eof_eq, ← rest_eq]
      rfl

/-- Tokens have a first end of script, once it is put behind them where there is none. However often
a parser is called on them, no call is cut off that has fuel for each token up to there, and the
calls are the same with any such fuel. Each call keeps to these tokens, the results are those of the
stream, and on all tokens that are the same up to there the calls are. -/
theorem calls_within_end (tokens : List Token) :
    ∃ last eof, (Stream.withEnd tokens)[last]? = some eof ∧ eof.kind = .eof ∧
      (∀ k token, k < last → (Stream.withEnd tokens)[k]? = some token → token.kind ≠ .eof) ∧
      ∀ n, ∃ cs, (∀ fuel, last < fuel → calls fuel tokens n = some cs) ∧ cs.length = n ∧
        (∀ call ∈ cs, call.WithinEnd (Stream.withEnd tokens) last) ∧
        cs.map Call.result =
          (Stream.parseTimes n (Stream.ofTokens tokens)).map (.mapError .wrong) ∧
        ∀ others,
          (Stream.withEnd others).take (last + 1) = (Stream.withEnd tokens).take (last + 1) →
          ∀ fuel, last < fuel → calls fuel others n = some cs := by
  let script := Script.ofTokens tokens
  obtain ⟨more, all_eq⟩ := Stream.withEnd_eq tokens
  have tokens_eq : Stream.withEnd tokens = script.tokens ++ script.eof :: more := all_eq
  rw [tokens_eq]
  refine ⟨script.last, script.eof, ?_, script.at_end, ?_, fun n => ?_⟩
  · rw [script.lookup (Nat.le_refl _), script.token_last]
  · intro k token lt found
    rw [script.lookup (Nat.le_of_lt lt)] at found
    obtain rfl := Option.some.inj found
    rw [Ne, script.token_eof_iff (Nat.le_of_lt lt)]
    exact Nat.ne_of_lt lt
  · obtain ⟨cs, runs, length_eq, within, results_eq⟩ :=
      callsAt_of_le script (Nat.lt_succ_self _) n (Nat.zero_le _)
    have same_calls {others : List Token} {behind : List Token} {fuel : Nat}
        (others_eq : Stream.withEnd others = script.tokens ++ script.eof :: behind)
        (enough : script.last < fuel) : calls fuel others n = some cs := by
      rw [calls, others_eq]
      exact callsAt_of_fuel_le enough (runs behind)
    refine ⟨cs, fun _ enough => same_calls tokens_eq enough, length_eq, within more, results_eq,
      fun others same _ enough => ?_⟩
    obtain ⟨behind, others_eq⟩ := script.eq_append_of_take same
    exact same_calls others_eq enough

/-- The tokens of `BEGIN x { if (x) ; ; }`, the end of a script, and a stray parenthesis. The second
call goes on at the name, and goes back over the second semicolon. -/
example :
    let kinds : List TokenKind := [.symbol .beginWord, .name "x", .symbol .leftBrace,
      .symbol .ifWord, .symbol .leftParen, .name "x", .symbol .rightParen, .symbol .semicolon,
      .symbol .semicolon, .symbol .rightBrace, .eof, .symbol .rightParen]
    (calls 11 (kinds.map fun kind => ⟨kind, .start⟩) 3).map
        (List.map fun call => (call.start, call.passed.reverse, call.stop)) =
      some [(0, [0], 1), (1, [1, 2, 3, 4, 5, 6, 7, 8, 9, 8, 9], 10), (10, [], 10)] := by
  decide +kernel

end Descent

end FieldScript
