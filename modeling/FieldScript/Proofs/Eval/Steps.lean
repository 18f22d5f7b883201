import FieldScript.Session

/-!
# What one step does

A step of a run prints, changes one variable, or begins a record. Each is told here by the one thing
that it may fail at and the world that it leaves otherwise; nothing else looks into them.
-/

namespace FieldScript

/-- Whether a step can fail so: a `break` is found to be stray only behind all steps of a rule. -/
def RunFault.IsOfStep (fault : RunFault) : Prop := ∀ place, fault ≠ .strayBreak place

theorem RunFault.isOfStep_of_mapError {α : Type} {result : Except OperatorFault α}
    {fault : RunFault} (h : result.mapError .operator = .error fault) : fault.IsOfStep := by
  cases result with
  | error inner =>
    rw [← Except.error.inj h]
    simp [IsOfStep]
  | ok a => cases h

theorem Store.get_name (store : Store) (b : Builtin) : store.get b.name = store.builtin b := by
  simp [get, lookup]

theorem Store.setBuiltin_eq_set (store : Store) (b : Builtin) (value : Value) :
    store.setBuiltin b value = store.set b.name value := by
  simp [set]

namespace World

theorem isOfStep_of_eval {world : World} {e : Expr} {fault : RunFault}
    (h : world.eval e = .error fault) : fault.IsOfStep :=
  RunFault.isOfStep_of_mapError h

theorem isOfStep_of_evalAll {world : World} {args : List Expr} {fault : RunFault}
    (h : world.evalAll args = .error fault) : fault.IsOfStep := by
  induction args generalizing fault with
  | nil => cases h
  | cons e rest ih =>
    rw [evalAll] at h
    cases value : world.eval e with
    | error first =>
      rw [value] at h
      rw [← Except.error.inj h]
      exact isOfStep_of_eval value
    | ok v =>
      rw [value] at h
      cases values : world.evalAll rest with
      | error later =>
        rw [values] at h
        rw [← Except.error.inj h]
        exact ih values
      | ok vs =>
        rw [values] at h
        cases h

/-- Evaluates everything and then writes once. -/
def print (args : List Expr) (world : World) : Except RunFault World := do
  let values ← world.evalAll args
  world.write (world.printed values)

@[simp] theorem attempt_ok (world next : World) : world.attempt (.ok next) = (.normal, next) := rfl

@[simp] theorem attempt_error (world : World) (fault : RunFault) :
    world.attempt (.error fault) = (.failed fault, world) := rfl

theorem print_of_evalAll_error {args : List Expr} {world : World} {fault : RunFault}
    (h : world.evalAll args = .error fault) : world.print args = .error fault := by
  rw [print, h]
  rfl

theorem print_of_evalAll {args : List Expr} {world : World} {values : List Value}
    (h : world.evalAll args = .ok values) :
    world.print args =
      (world.sink.write (world.printed values)).map fun sink => { world with sink } := by
  rw [print, h]
  change world.write _ = _
  unfold write
  cases world.sink.write (world.printed values) <;> rfl

theorem isOfStep_of_print {args : List Expr} {world : World} {fault : RunFault}
    (h : world.print args = .error fault) : fault.IsOfStep := by
  cases values_eq : world.evalAll args with
  | error first =>
    rw [print_of_evalAll_error values_eq] at h
    rw [← Except.error.inj h]
    exact isOfStep_of_evalAll values_eq
  | ok values =>
    rw [print_of_evalAll values_eq, Sink.write] at h
    split at h <;> cases h
    simp [RunFault.IsOfStep]

theorem attempt_print (args : List Expr) (world : World) :
    ∃ sink, (world.attempt (world.print args)).2 = { world with sink } := by
  cases values_eq : world.evalAll args with
  | error fault =>
    rw [print_of_evalAll_error values_eq]
    exact ⟨world.sink, rfl⟩
  | ok values =>
    rw [print_of_evalAll values_eq]
    cases world.sink.write (world.printed values) with
    | error fault => exact ⟨world.sink, rfl⟩
    | ok sink => exact ⟨sink, rfl⟩

def withRecord (world : World) (line : String) (nr : Value) : World :=
  let record := Record.ofLine world.store.fs.display line
  { world with
    store := { world.store with nr, nf := .int (Int64.ofNat record.fields.length) }
    record }

theorem store_withRecord (world : World) (line : String) (nr : Value) :
    (world.withRecord line nr).store = (world.store.set Builtin.nr.name nr).set Builtin.nf.name
      (.int (Int64.ofNat (world.withRecord line nr).record.fields.length)) := by
  rw [← Store.setBuiltin_eq_set, ← Store.setBuiltin_eq_set]
  rfl

/-- A record is begun when `NR` can be counted up. -/
theorem beginRecord_cases (world : World) (line : String) :
    (∃ fault, Value.arithmetic .add world.store.nr (.int 1) = .error fault ∧
      world.beginRecord line = .error (.operator fault)) ∨
    ∃ nr, Value.arithmetic .add world.store.nr (.int 1) = .ok nr ∧
      world.beginRecord line = .ok (world.withRecord line nr) := by
  unfold beginRecord
  cases Value.arithmetic .add world.store.nr (.int 1) with
  | error fault => exact .inl ⟨fault, rfl, rfl⟩
  | ok nr => exact .inr ⟨nr, rfl, rfl⟩

theorem isOfStep_of_beginRecord {world : World} {line : String} {fault : RunFault}
    (h : world.beginRecord line = .error fault) : fault.IsOfStep := by
  rcases world.beginRecord_cases line with ⟨inner, -, fails⟩ | ⟨nr, -, begun⟩
  · rw [fails] at h
    rw [← Except.error.inj h]
    simp [RunFault.IsOfStep]
  · simp [begun] at h

end World

/-- A variable is changed when there is a new value for it. -/
theorem Simple.run_cases (s : Simple) (world : World) :
    (∃ fault, s.newValue world = .error fault ∧ s.run world = .error fault) ∨
    ∃ v, s.newValue world = .ok v ∧
      s.run world = .ok { world with store := world.store.set s.target v } := by
  unfold run
  cases s.newValue world with
  | error fault => exact .inl ⟨fault, rfl, rfl⟩
  | ok v => exact .inr ⟨v, rfl, rfl⟩

theorem Simple.isOfStep_of_newValue {s : Simple} {world : World} {fault : RunFault}
    (h : s.newValue world = .error fault) : fault.IsOfStep := by
  cases s with
  | assign name op e place =>
    cases op with
    | none => exact World.isOfStep_of_eval h
    | some op =>
      rw [newValue] at h
      cases value : world.eval e with
      | error first =>
        rw [value] at h
        rw [← Except.error.inj h]
        exact World.isOfStep_of_eval value
      | ok v =>
        rw [value] at h
        exact RunFault.isOfStep_of_mapError h
  | increment name step side place =>
    rw [newValue] at h
    split at h
    · cases h
    · split at h
      · exact RunFault.isOfStep_of_mapError h
      · rw [← Except.error.inj h]
        simp [RunFault.IsOfStep]

theorem Simple.isOfStep_of_run {s : Simple} {world : World} {fault : RunFault}
    (h : s.run world = .error fault) : fault.IsOfStep := by
  rcases s.run_cases world with ⟨first, value_eq, fails⟩ | ⟨v, -, taken⟩
  · rw [fails] at h
    rw [← Except.error.inj h]
    exact isOfStep_of_newValue value_eq
  · simp [taken] at h

end FieldScript
