import FieldScript.Program.Descent
import FieldScript.Proofs.Program.CorrectPrefix

/-!
# What a parser by descent does

A parser by descent follows the reader of the tokens up to the first end of a script when it comes
to an end itself, keeps its cursor among those tokens, and leaves the reader with the same to read
as before. There is one rule for each step that a parser is made of.
-/

namespace FieldScript

open Reader (State)

/-- Tokens up to the first end of a script, and that end. -/
structure Script where
  tokens : List Token
  eof : Token
  no_eof : ∀ token ∈ tokens, token.kind ≠ .eof
  at_end : eof.kind = .eof

namespace Script

variable (script : Script) {state next : State} {k : Nat}

def last : Nat := script.tokens.length

def token (k : Nat) : Token := script.tokens[k]?.getD script.eof

/-- The outcome of reading on from a position. -/
def reading (state : State) (k : Nat) : Except GrammarFault Program × List Token :=
  Reader.read state (script.tokens.drop k) script.eof

theorem token_of_lt (lt : k < script.last) : script.token k = script.tokens[k] := by
  rw [token, List.getElem?_eq_getElem lt]
  rfl

theorem token_last : script.token script.last = script.eof := by
  rw [token, last, List.getElem?_eq_none (Nat.le_refl _)]
  rfl

/-- What stands behind the end is not looked at up to there. -/
theorem lookup (le : k ≤ script.last) (behind : List Token) :
    (script.tokens ++ script.eof :: behind)[k]? = some (script.token k) := by
  by_cases lt : k < script.last
  · rw [List.getElem?_append_left lt, script.token_of_lt lt, List.getElem?_eq_getElem lt]
  · have k_eq : k = script.last := Nat.le_antisymm le (Nat.le_of_not_lt lt)
    rw [k_eq, script.token_last]
    simp [last]

theorem token_eof_iff (le : k ≤ script.last) :
    (script.token k).kind = .eof ↔ k = script.last := by
  constructor
  · intro kind_eq
    apply (Nat.lt_or_eq_of_le le).resolve_left
    intro lt
    rw [script.token_of_lt lt] at kind_eq
    exact script.no_eof _ (List.getElem_mem lt) kind_eq
  · rintro rfl
    rw [script.token_last]
    exact script.at_end

theorem lt_last (le : k ≤ script.last) (more : (script.token k).kind ≠ .eof) : k < script.last := by
  apply Nat.lt_of_le_of_ne le
  intro k_eq
  exact more ((script.token_eof_iff le).mpr k_eq)

theorem drop_of_lt (lt : k < script.last) :
    script.tokens.drop k = script.token k :: script.tokens.drop (k + 1) := by
  rw [script.token_of_lt lt]
  exact List.drop_eq_getElem_cons lt

theorem drop_last : script.tokens.drop script.last = [] := List.drop_length

theorem lt_of_take (le : k ≤ script.last) (taken : state.take (script.token k) = .ok next) :
    k < script.last := by
  apply script.lt_last le
  intro at_end
  obtain ⟨wanted, refused⟩ := state.take_eof at_end
  rw [refused] at taken
  cases taken

theorem reading_of_take (le : k ≤ script.last) (taken : state.take (script.token k) = .ok next) :
    script.reading state k = script.reading next (k + 1) := by
  rw [reading, script.drop_of_lt (script.lt_of_take le taken), Reader.read, taken]
  rfl

theorem reading_of_wrong {wanted : Wanted} (le : k ≤ script.last)
    (incomplete : state.program? = none)
    (refused : state.take (script.token k) = .error wanted) :
    script.reading state k = (.error ⟨wanted, script.token k⟩, script.tokens.drop k) := by
  by_cases lt : k < script.last
  · rw [reading, script.drop_of_lt lt, Reader.read, refused]
  · have k_eq : k = script.last := Nat.le_antisymm le (Nat.le_of_not_lt lt)
    subst k_eq
    rw [script.token_last] at refused
    rw [reading, script.drop_last, Reader.read, incomplete, script.token_last]
    simp only [State.wantedAtEnd, refused]

theorem reading_congr_of_lt {other : State} (lt : k < script.last)
    (same : state.take (script.token k) = other.take (script.token k)) :
    script.reading state k = script.reading other k := by
  rw [reading, reading, script.drop_of_lt lt, Reader.read, Reader.read, same]

/-- Only the next token matters for where reading goes. -/
theorem reading_congr {other : State} (le : k ≤ script.last) (incomplete : state.program? = none)
    (incomplete' : other.program? = none)
    (same : state.take (script.token k) = other.take (script.token k)) :
    script.reading state k = script.reading other k := by
  by_cases lt : k < script.last
  · exact script.reading_congr_of_lt lt same
  · have k_eq : k = script.last := Nat.le_antisymm le (Nat.le_of_not_lt lt)
    subst k_eq
    rw [script.token_last] at same
    simp only [reading, script.drop_last, Reader.read, incomplete, incomplete',
      State.wantedAtEnd, same]

end Script

namespace Descent

variable {α β : Type}

theorem run_bind (p : Parser α) (f : α → Parser β) (tokens : List Token) (cursor : Cursor) :
    (p >>= f) tokens cursor =
      (p tokens cursor).bind fun (result, after) =>
        match result with
        | .ok a => f a tokens after
        | .error halt => some (.error halt, after) := by
  change (p tokens cursor).bind _ = _
  congr 1
  funext outcome
  obtain ⟨_ | _, _⟩ := outcome <;> rfl

theorem run_read (tokens : List Token) (cursor : Cursor) :
    (read : Parser (List Token)) tokens cursor = some (.ok tokens, cursor) := rfl

theorem run_get (tokens : List Token) (cursor : Cursor) :
    (get : Parser Cursor) tokens cursor = some (.ok cursor, cursor) := rfl

/-- A cursor goes on from one place to another without leaving the tokens up to the end, and does
not go back over where it began. -/
structure Cursor.Goes (last : Nat) (before after : Cursor) : Prop where
  forward : before.position ≤ after.position
  le_last : after.position ≤ last
  passed : ∀ k ∈ after.passed, k ∈ before.passed ∨ before.position ≤ k ∧ k ≤ last

namespace Cursor.Goes

variable {last : Nat} {c d e : Cursor}

theorem refl (le : c.position ≤ last) : c.Goes last c :=
  ⟨Nat.le_refl _, le, fun _ member => .inl member⟩

theorem trans (h : c.Goes last d) (h' : d.Goes last e) : c.Goes last e := by
  constructor
  · exact Nat.le_trans h.forward h'.forward
  · exact h'.le_last
  · intro k member
    obtain earlier | ⟨le, le_last⟩ := h'.passed k member
    · exact h.passed k earlier
    · exact .inr ⟨Nat.le_trans h.forward le, le_last⟩

theorem back (h : c.Goes last d) : c.Goes last (d.moveTo c.position) := by
  constructor
  · exact Nat.le_refl _
  · exact Nat.le_trans h.forward h.le_last
  · intro k member
    obtain rfl | member := List.mem_cons.mp member
    · exact .inr ⟨h.forward, h.le_last⟩
    · exact h.passed k member

theorem step (lt : c.position < last) : c.Goes last (c.moveTo (c.position + 1)) := by
  constructor
  · exact Nat.le_succ _
  · exact lt
  · intro k member
    obtain rfl | member := List.mem_cons.mp member
    · exact .inr ⟨Nat.le_refl _, Nat.le_of_lt lt⟩
    · exact .inl member

end Cursor.Goes

/-- What the result of a parser tells of the reader, which was at a state where the parser began. It
is at another one where the parser stops, with the same to read, or is at fault there. -/
inductive Tells (script : Script) (state : State) (start : Nat) (next : α → State)
    (Q : α → Cursor → Prop) (stop : Cursor) : Except Halt α → Prop where
  | ok {a : α} (same : script.reading state start = script.reading (next a) stop.position)
    (holds : Q a stop) : Tells script state start next Q stop (.ok a)
  | wrong {fault : GrammarFault}
    (failed : script.reading state start = (.error fault, script.tokens.drop stop.position)) :
    Tells script state start next Q stop (.error (.wrong fault))

/-- A parser comes to an end with one result, whatever stands behind the end of the script. The
cursor stays before that end, no lookup fails, and the result tells where the reader is. -/
def Follows (script : Script) (p : Parser α) (c : Cursor) (state : State) (next : α → State)
    (Q : α → Cursor → Prop) : Prop :=
  c.position ≤ script.last → ∃ result stop,
    (∀ behind, p (script.tokens ++ script.eof :: behind) c = some (result, stop)) ∧
      c.Goes script.last stop ∧ Tells script state c.position next Q stop result

namespace Follows

variable {script : Script} {p : Parser α} {f : α → Parser β} {c : Cursor} {state mid : State}
  {next : α → State} {Q : α → Cursor → Prop}

theorem of_past (past : script.last < c.position) : Follows script p c state next Q := by
  intro le
  exact absurd le (Nat.not_le.mpr past)

/-- It does not matter from which state the same is read. -/
theorem of_reading (mid : State) (same : c.position ≤ script.last →
      script.reading state c.position = script.reading mid c.position)
    (h : Follows script p c mid next Q) : Follows script p c state next Q := by
  intro le
  obtain ⟨result, stop, runs, goes, tells⟩ := h le
  refine ⟨result, stop, runs, goes, ?_⟩
  cases tells with
  | ok kept holds => exact .ok ((same le).trans kept) holds
  | wrong failed => exact .wrong ((same le).trans failed)

theorem of_take (mid : State) (incomplete : state.program? = none)
    (incomplete' : mid.program? = none)
    (same : state.take (script.token c.position) = mid.take (script.token c.position))
    (h : Follows script p c mid next Q) : Follows script p c state next Q :=
  h.of_reading mid fun le => script.reading_congr le incomplete incomplete' same

/-- A parser that begins with what takes the cursor on does what the rest of it does from there. -/
theorem of_goes {q : Parser α} {d : Cursor} (goes : c.position ≤ script.last → c.Goes script.last d)
    (same : c.position ≤ script.last →
      script.reading state c.position = script.reading mid d.position)
    (runs : c.position ≤ script.last → ∀ behind,
      p (script.tokens ++ script.eof :: behind) c = q (script.tokens ++ script.eof :: behind) d)
    (h : Follows script q d mid next Q) : Follows script p c state next Q := by
  intro le
  obtain ⟨result, stop, later_runs, later, tells⟩ := h (goes le).le_last
  refine ⟨result, stop, fun behind => (runs le behind).trans (later_runs behind),
    (goes le).trans later, ?_⟩
  cases tells with
  | ok kept holds => exact .ok ((same le).trans kept) holds
  | wrong failed => exact .wrong ((same le).trans failed)

theorem bind {next' : β → State} {Q' : β → Cursor → Prop} (h : Follows script p c state next Q)
    (rest : ∀ a d, c.Goes script.last d → Q a d →
      Follows script (f a) d (next a) next' Q') :
    Follows script (p >>= f) c state next' Q' := by
  intro le
  obtain ⟨result, stop, runs, goes, tells⟩ := h le
  cases tells with
  | @ok a same holds =>
    have later := rest a stop goes holds
    apply later.of_goes (fun _ => goes) (fun _ => same) (fun _ behind => ?_) le
    rw [run_bind, runs behind]
    rfl
  | @wrong fault failed =>
    refine ⟨.error (.wrong fault), stop, fun behind => ?_, goes, .wrong failed⟩
    rw [run_bind, runs behind]
    rfl

theorem mono {Q' : α → Cursor → Prop} (h : Follows script p c state next Q)
    (weaker : ∀ a d, c.Goes script.last d → Q a d → Q' a d) : Follows script p c state next Q' := by
  intro le
  obtain ⟨result, stop, runs, goes, tells⟩ := h le
  refine ⟨result, stop, runs, goes, ?_⟩
  cases tells with
  | ok same holds => exact .ok same (weaker _ _ goes holds)
  | wrong failed => exact .wrong failed

/-- Where the parser stops, the reader may be told to be at a state that does the same there. -/
theorem behind {next' : α → State} (h : Follows script p c state next Q)
    (incomplete : ∀ a, (next a).program? = none) (incomplete' : ∀ a, (next' a).program? = none)
    (same : ∀ a d, Q a d →
      (next a).take (script.token d.position) = (next' a).take (script.token d.position)) :
    Follows script p c state next' Q := by
  intro le
  obtain ⟨result, stop, runs, goes, tells⟩ := h le
  refine ⟨result, stop, runs, goes, ?_⟩
  cases tells with
  | @ok a kept holds =>
    have alike := script.reading_congr goes.le_last (incomplete a) (incomplete' a)
      (same a stop holds)
    exact .ok (kept.trans alike) holds
  | wrong failed => exact .wrong failed

theorem pure {a : α} (state_eq : state = next a) (holds : Q a c) :
    Follows script (Pure.pure a) c state next Q := by
  intro le
  exact ⟨.ok a, c, fun _ => rfl, .refl le, .ok (by rw [state_eq]) holds⟩

theorem map {g : α → β} {next' : β → State} {Q' : β → Cursor → Prop}
    (h : Follows script p c state (fun a => next' (g a)) fun a => Q' (g a)) :
    Follows script (p >>= fun a => Pure.pure (g a)) c state next' Q' :=
  h.bind fun _ _ _ holds => .pure rfl holds

end Follows

section Steps

variable {script : Script} {c : Cursor}

theorem run_current (le : c.position ≤ script.last) (behind : List Token) :
    current (script.tokens ++ script.eof :: behind) c =
      some (.ok (script.token c.position), c) := by
  simp only [current, run_bind, run_read, run_get, Option.bind_some, script.lookup le]
  rfl

theorem run_isAtEnd (le : c.position ≤ script.last) (behind : List Token) :
    isAtEnd (script.tokens ++ script.eof :: behind) c =
      some (.ok (decide ((script.token c.position).kind = .eof)), c) := by
  rw [isAtEnd, run_bind, run_current le]
  rfl

theorem run_check (le : c.position ≤ script.last) (s : Symbol) (behind : List Token) :
    check s (script.tokens ++ script.eof :: behind) c =
      some (.ok (decide ((script.token c.position).kind = .symbol s)), c) := by
  rw [check, run_bind, run_current le]
  rfl

theorem run_advance (lt : c.position < script.last) (behind : List Token) :
    advance (script.tokens ++ script.eof :: behind) c =
      some (.ok (), c.moveTo (c.position + 1)) := by
  have le := Nat.le_of_lt lt
  have more : (script.token c.position).kind ≠ .eof := by
    rw [Ne, script.token_eof_iff le]
    exact Nat.ne_of_lt lt
  rw [advance, run_bind, run_isAtEnd le, decide_eq_false more]
  rfl

theorem run_accept_of_eq (le : c.position ≤ script.last) {s : Symbol}
    (right : (script.token c.position).kind = .symbol s) (behind : List Token) :
    accept s (script.tokens ++ script.eof :: behind) c =
      some (.ok true, c.moveTo (c.position + 1)) := by
  have lt : c.position < script.last := script.lt_last le (by rw [right]; nofun)
  rw [accept, run_bind, run_check le, decide_eq_true right]
  change (advance >>= fun _ => Pure.pure true) _ c = _
  rw [run_bind, run_advance lt]
  rfl

theorem run_accept_of_ne (le : c.position ≤ script.last) {s : Symbol}
    (other : (script.token c.position).kind ≠ .symbol s) (behind : List Token) :
    accept s (script.tokens ++ script.eof :: behind) c = some (.ok false, c) := by
  rw [accept, run_bind, run_check le, decide_eq_false other]
  rfl

end Steps

namespace Follows

variable {script : Script} {f : Token → Parser α} {c : Cursor} {state mid : State}
  {next : α → State} {Q : α → Cursor → Prop}

theorem look (h : Follows script (f (script.token c.position)) c state next Q) :
    Follows script (current >>= f) c state next Q := by
  apply h.of_goes .refl (fun _ => rfl)
  intro le behind
  rw [run_bind, run_current le]
  rfl

theorem ifAtEnd {f : Bool → Parser α}
    (h : Follows script (f (decide ((script.token c.position).kind = .eof))) c state next Q) :
    Follows script (isAtEnd >>= f) c state next Q := by
  apply h.of_goes .refl (fun _ => rfl)
  intro le behind
  rw [run_bind, run_isAtEnd le]
  rfl

theorem check {s : Symbol} {f : Bool → Parser α}
    (h : Follows script (f (decide ((script.token c.position).kind = .symbol s))) c state next Q) :
    Follows script (Descent.check s >>= f) c state next Q := by
  apply h.of_goes .refl (fun _ => rfl)
  intro le behind
  rw [run_bind, run_check le]
  rfl

theorem advance {f : Unit → Parser α} (taken : state.take (script.token c.position) = .ok mid)
    (h : Follows script (f ()) (c.moveTo (c.position + 1)) mid next Q) :
    Follows script (Descent.advance >>= f) c state next Q := by
  have lt (le : c.position ≤ script.last) := script.lt_of_take le taken
  apply h.of_goes (fun le => .step (lt le)) (fun le => script.reading_of_take le taken)
  intro le behind
  rw [run_bind, run_advance (lt le)]
  rfl

theorem accept {s : Symbol} {f : Bool → Parser α}
    (yes : (script.token c.position).kind = .symbol s →
      ∃ mid, state.take (script.token c.position) = .ok mid ∧
        Follows script (f true) (c.moveTo (c.position + 1)) mid next Q)
    (no : (script.token c.position).kind ≠ .symbol s → Follows script (f false) c state next Q) :
    Follows script (Descent.accept s >>= f) c state next Q := by
  by_cases right : (script.token c.position).kind = .symbol s
  · obtain ⟨mid, taken, h⟩ := yes right
    apply h.of_goes (fun le => .step (script.lt_of_take le taken))
      (fun le => script.reading_of_take le taken)
    intro le behind
    rw [run_bind, run_accept_of_eq le right]
    rfl
  · apply (no right).of_goes .refl (fun _ => rfl)
    intro le behind
    rw [run_bind, run_accept_of_ne le right]
    rfl

theorem fail {wanted : Wanted} (incomplete : state.program? = none)
    (refused : state.take (script.token c.position) = .error wanted) :
    Follows script (Descent.fail wanted) c state next Q := by
  intro le
  refine ⟨.error (.wrong ⟨wanted, script.token c.position⟩), c, fun behind => ?_, .refl le,
    .wrong (script.reading_of_wrong le incomplete refused)⟩
  rw [Descent.fail, run_bind, run_current le]
  rfl

theorem failBefore {wanted : Wanted} {f : β → Parser α} (incomplete : state.program? = none)
    (refused : state.take (script.token c.position) = .error wanted) :
    Follows script (Descent.fail wanted >>= f) c state next Q := by
  have failed : Follows script (Descent.fail wanted : Parser β) c state (fun _ => state)
      fun _ _ => False := fail incomplete refused
  exact failed.bind fun _ _ _ impossible => impossible.elim

theorem expect {s : Symbol} {f : Unit → Parser α}
    (yes : (script.token c.position).kind = .symbol s →
      ∃ mid, state.take (script.token c.position) = .ok mid ∧
        Follows script (f ()) (c.moveTo (c.position + 1)) mid next Q)
    (no : (script.token c.position).kind ≠ .symbol s →
      state.program? = none ∧ state.take (script.token c.position) = .error (.symbol s)) :
    Follows script (Descent.expect s >>= f) c state next Q := by
  rw [Descent.expect, bind_assoc]
  apply check
  by_cases right : (script.token c.position).kind = .symbol s
  · obtain ⟨mid, taken, h⟩ := yes right
    rw [decide_eq_true right, if_pos rfl]
    exact advance taken h
  · rw [decide_eq_false right, if_neg Bool.false_ne_true]
    exact failBefore (no right).1 (no right).2

theorem expectNext {s : Symbol} {f : Unit → Parser α} {mode : Reader.Mode}
    (h : Follows script (f ()) (c.moveTo (c.position + 1)) (.between mode) next Q) :
    Follows script (Descent.expect s >>= f) c (.between (.expect s mode)) next Q := by
  apply expect
  · intro right
    exact ⟨_, by rw [State.take, Reader.Mode.take, if_pos right], h⟩
  · intro other
    exact ⟨rfl, by rw [State.take, Reader.Mode.take, if_neg other]⟩

theorem expectName {f : String → Parser α} (incomplete : state.program? = none)
    (yes : ∀ x, (script.token c.position).kind = .name x →
      ∃ mid, state.take (script.token c.position) = .ok mid ∧
        Follows script (f x) (c.moveTo (c.position + 1)) mid next Q)
    (no : (∀ x, (script.token c.position).kind ≠ .name x) →
      state.take (script.token c.position) = .error .name) :
    Follows script (Descent.expectName >>= f) c state next Q := by
  rw [Descent.expectName, bind_assoc]
  apply look
  split
  · next x right =>
    obtain ⟨mid, taken, h⟩ := yes x right
    rw [bind_assoc]
    apply advance taken
    rwa [pure_bind]
  · next other =>
    exact failBefore incomplete (no other)

end Follows

end Descent

end FieldScript
