import FieldScript.Proofs.Program.Precedence

/-!
# Runs of the program reader

Reading goes token by token, so a run over a list of tokens splits anywhere. A script that is no
program is read up to the token that is wrong, and an expression inside a program is read as one
that stands alone.
-/

namespace FieldScript.Reader

def State.takeAll : State → List Token → Except Wanted State
  | state, [] => .ok state
  | state, token :: rest => do
    let next ← state.take token
    next.takeAll rest

@[simp] theorem State.takeAll_nil (state : State) : state.takeAll [] = .ok state := rfl

theorem State.takeAll_cons {state next : State} {token : Token} (rest : List Token)
    (h : state.take token = .ok next) : state.takeAll (token :: rest) = next.takeAll rest := by
  rw [takeAll, h]
  rfl

theorem State.takeAll_cons_eq_ok {state final : State} {token : Token} {rest : List Token}
    (h : state.takeAll (token :: rest) = .ok final) :
    ∃ next, state.take token = .ok next ∧ next.takeAll rest = .ok final := by
  rw [takeAll] at h
  cases taken : state.take token with
  | error wanted => simp [taken, bind, Except.bind] at h
  | ok next => exact ⟨next, rfl, by simpa [taken, bind, Except.bind] using h⟩

theorem State.takeAll_append {state mid : State} {ts : List Token} (rest : List Token)
    (h : state.takeAll ts = .ok mid) : state.takeAll (ts ++ rest) = mid.takeAll rest := by
  induction ts generalizing state with
  | nil => rw [← Except.ok.inj h, List.nil_append]
  | cons token ts ih =>
    obtain ⟨next, taken, h⟩ := takeAll_cons_eq_ok h
    rw [List.cons_append, takeAll_cons _ taken, ih h]

theorem State.takeAll_append_eq_ok {state final : State} {ts rest : List Token}
    (h : state.takeAll (ts ++ rest) = .ok final) :
    ∃ mid, state.takeAll ts = .ok mid ∧ mid.takeAll rest = .ok final := by
  induction ts generalizing state with
  | nil => exact ⟨state, rfl, h⟩
  | cons token ts ih =>
    obtain ⟨next, taken, h⟩ := takeAll_cons_eq_ok h
    obtain ⟨mid, taken_all, h⟩ := ih h
    exact ⟨mid, by rw [takeAll_cons _ taken, taken_all], h⟩

theorem State.takeAll_invariant {Holds : State → Prop}
    (step : ∀ {state next : State} {token : Token}, Holds state → state.take token = .ok next →
      Holds next)
    {state final : State} {ts : List Token} (start : Holds state)
    (h : state.takeAll ts = .ok final) : Holds final := by
  induction ts generalizing state with
  | nil => rwa [← Except.ok.inj h]
  | cons token ts ih =>
    obtain ⟨next, taken, h⟩ := takeAll_cons_eq_ok h
    exact ih (step start taken) h

theorem read_append {state mid : State} {ts : List Token} (rest : List Token) (eof : Token)
    (h : state.takeAll ts = .ok mid) : read state (ts ++ rest) eof = read mid rest eof := by
  induction ts generalizing state with
  | nil => rw [← Except.ok.inj h, List.nil_append]
  | cons token ts ih =>
    obtain ⟨next, taken, h⟩ := State.takeAll_cons_eq_ok h
    rw [List.cons_append, read, taken]
    exact ih h

theorem read_of_takeAll {state final : State} {ts : List Token} {program : Program} (eof : Token)
    (h : state.takeAll ts = .ok final) (complete : final.program? = some program) :
    read state ts eof = (.ok program, []) := by
  have whole := read_append [] eof h
  rw [List.append_nil] at whole
  rw [whole, read, complete]

theorem takeAll_of_read {state : State} {tokens rest : List Token} {eof : Token}
    {program : Program} (h : read state tokens eof = (.ok program, rest)) :
    rest = [] ∧ ∃ final, state.takeAll tokens = .ok final ∧ final.program? = some program := by
  induction tokens generalizing state with
  | nil =>
    rw [read] at h
    split at h
    · next found complete =>
      simp only [Prod.mk.injEq, Except.ok.injEq] at h
      obtain ⟨rfl, rfl⟩ := h
      exact ⟨rfl, state, rfl, complete⟩
    · simp at h
  | cons token tokens ih =>
    rw [read] at h
    split at h
    · next next taken =>
      obtain ⟨rest_eq, final, taken_all, complete⟩ := ih h
      exact ⟨rest_eq, final, by rw [State.takeAll_cons _ taken, taken_all], complete⟩
    · simp at h

/-- A program is whole between rules, of which there is at least one. -/
theorem State.program?_eq_some_iff {state : State} {program : Program} :
    state.program? = some program ↔ state = .between (.rules program) ∧ program ≠ [] := by
  constructor
  · intro complete
    rw [program?.eq_def] at complete
    split at complete
    · next first more =>
      obtain rfl := Option.some.inj complete
      exact ⟨rfl, List.cons_ne_nil first more⟩
    · cases complete
  · rintro ⟨rfl, some_rule⟩
    cases program with
    | nil => exact absurd rfl some_rule
    | cons first more => rfl

/-- A program is read exactly where the tokens lead to its rules. -/
theorem read_eq_ok_iff {state : State} {tokens : List Token} {eof : Token} {program : Program} :
    (read state tokens eof).1 = .ok program ↔
      state.takeAll tokens = .ok (.between (.rules program)) ∧ program ≠ [] := by
  constructor
  · intro h
    obtain ⟨-, final, taken, complete⟩ := takeAll_of_read (Prod.ext h rfl)
    obtain ⟨rfl, some_rule⟩ := State.program?_eq_some_iff.mp complete
    exact ⟨taken, some_rule⟩
  · rintro ⟨taken, some_rule⟩
    rw [read_of_takeAll eof taken (State.program?_eq_some_iff.mpr ⟨rfl, some_rule⟩)]

/-- Reading fails at the first token that is wrong; that may be the end of the script. -/
theorem wrong_of_read {state : State} {tokens rest : List Token} {eof : Token}
    {fault : GrammarFault} (at_end : eof.kind = .eof)
    (h : read state tokens eof = (.error fault, rest)) :
    ∃ ts mid, tokens = ts ++ rest ∧ state.takeAll ts = .ok mid ∧
      (rest ++ [eof]).head? = some fault.found ∧ mid.take fault.found = .error fault.wanted ∧
      (rest = [] → mid.program? = none) := by
  induction tokens generalizing state with
  | nil =>
    rw [read] at h
    split at h
    · simp at h
    · next incomplete =>
      simp only [Prod.mk.injEq, Except.error.injEq] at h
      obtain ⟨rfl, rfl⟩ := h
      obtain ⟨wanted, refused⟩ := state.take_eof at_end
      refine ⟨[], state, rfl, rfl, rfl, ?_, fun _ => incomplete⟩
      simp only [State.wantedAtEnd, refused]
  | cons token tokens ih =>
    rw [read] at h
    split at h
    · next next taken =>
      obtain ⟨ts, mid, rfl, taken_all, facts⟩ := ih h
      exact ⟨token :: ts, mid, rfl, by rw [State.takeAll_cons _ taken, taken_all], facts⟩
    · next wanted refused =>
      simp only [Prod.mk.injEq, Except.error.injEq] at h
      obtain ⟨rfl, rfl⟩ := h
      exact ⟨[], state, rfl, rfl, rfl, refused, by simp⟩

/-- A token that is part of an expression is taken by the expression. -/
theorem take_inExpr {state next : ExprReader.State} {token : Token} (purpose : Purpose)
    (h : state.take token = .more next) :
    (State.inExpr state purpose).take token = .ok (.inExpr next purpose) := by
  simp only [State.take, h]

/-- A token that ends an expression is taken by what the expression is for. -/
theorem take_inExpr_done {state : ExprReader.State} {token : Token} {e : Expr} (purpose : Purpose)
    (h : state.take token = .done e) :
    (State.inExpr state purpose).take token = (purpose.served e).take token := by
  simp only [State.take, h]

theorem take_inExpr_wrong {state : ExprReader.State} {token : Token} {wanted : Wanted}
    (purpose : Purpose) (h : state.take token = .wrong wanted) :
    (State.inExpr state purpose).take token = .error wanted := by
  simp only [State.take, h]

theorem takeAll_inExpr {state final : ExprReader.State} {ts : List Token} (purpose : Purpose)
    (h : state.takeAll ts = some final) :
    (State.inExpr state purpose).takeAll ts = .ok (.inExpr final purpose) := by
  induction ts generalizing state with
  | nil => rw [← Option.some.inj h, State.takeAll_nil]
  | cons token ts ih =>
    rw [ExprReader.State.takeAll] at h
    split at h
    · next next taken =>
      rw [State.takeAll_cons _ (take_inExpr purpose taken)]
      exact ih h
    · simp at h

theorem program?_served (e : Expr) (purpose : Purpose) :
    (State.between (purpose.served e)).program? = none := by
  rcases purpose with _ | _ | ⟨_, _, _, _ | _ | _⟩ | _ | _ <;> rfl

/-- An expression inside a program is read as one that stands alone, and its purpose goes on
behind it. -/
theorem read_inExpr (state : ExprReader.State) (purpose : Purpose) (tokens : List Token)
    {eof : Token} (at_end : eof.kind = .eof) :
    read (.inExpr state purpose) tokens eof =
      match ExprReader.read state tokens eof with
      | (.ok e, rest) => read (.between (purpose.served e)) rest eof
      | (.error fault, rest) => (.error fault, rest) := by
  induction tokens generalizing state with
  | nil =>
    rw [read, ExprReader.read]
    cases ended : state.take eof with
    | more next => exact absurd ended (state.take_eof_ne_more next at_end)
    | done e =>
      have behind : read (.between (purpose.served e)) [] eof =
          (.error ⟨(State.between (purpose.served e)).wantedAtEnd eof, eof⟩, []) := by
        rw [read, program?_served]
      simp only [State.program?, behind, State.wantedAtEnd, State.take, ended]
    | wrong wanted => simp [State.program?, State.wantedAtEnd, State.take, ended]
  | cons token tokens ih =>
    rw [read, ExprReader.read]
    cases taken : state.take token with
    | more next =>
      rw [take_inExpr purpose taken]
      exact ih next
    | done e =>
      rw [take_inExpr_done purpose taken]
      rfl
    | wrong wanted => simp [State.take, taken]

end FieldScript.Reader

namespace FieldScript.Stream

theorem parse_eq_ok_iff {stream : Stream} {program : Program} :
    stream.parse.1 = .ok program ↔
      Reader.State.start.takeAll stream.tokens = .ok (.between (.rules program)) ∧ program ≠ [] :=
  Reader.read_eq_ok_iff

end FieldScript.Stream
