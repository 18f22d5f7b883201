import FieldScript.Proofs.Eval.Invariant

/-!
# The variables that matter

What a run does depends on no variable that is neither built in nor in the program, and it changes
none. A variable that was never assigned counts as one that holds zero.
-/

namespace FieldScript

/-- Two worlds that differ at most in variables outside of these names. -/
structure World.AgreeOn (names : List String) (a b : World) : Prop where
  record : a.record = b.record
  sink : a.sink = b.sink
  get : ∀ name ∈ names, a.store.get name = b.store.get name

theorem Expr.eval_congr {a b : Store} {record : Record} {e : Expr}
    (agree : ∀ name ∈ e.names, a.get name = b.get name) :
    e.eval a record = e.eval b record := by
  induction e with
  | literal v place => rfl
  | var name place => rw [eval, eval, agree name List.mem_cons_self]
  | field index place =>
    cases index with
    | literal n place => rfl
    | var name place =>
      rw [eval, eval, FieldIndex.value, FieldIndex.value, agree name List.mem_cons_self]
  | binary op left right place ihl ihr =>
    have left_eq := ihl fun name member => agree name (List.mem_append_left _ member)
    have right_eq := ihr fun name member => agree name (List.mem_append_right _ member)
    rw [eval, eval, left_eq, right_eq]
  | unary op operand place ih => rw [eval, eval, ih agree]

/-- Stepping an unset variable is stepping one that holds zero. -/
theorem Simple.newValue_increment (world : World) (name : String) (step : Step)
    (side : Side) (place : Location) :
    newValue world (.increment name step side place) =
      if (world.store.get name).isNumeric then
        (Value.arithmetic .add (world.store.get name) step.amount).mapError .operator
      else .error (.increment name (world.store.get name).display) := by
  have from_zero : Value.arithmetic .add .zero step.amount = .ok step.amount := by
    cases step <;> rfl
  rw [newValue, Store.get]
  cases world.store.lookup name with
  | none => simp only [Option.getD_none, from_zero]; rfl
  | some v => rfl

namespace World.AgreeOn

variable {names : List String} {a b : World}

theorem builtin (h : a.AgreeOn names b) {which : Builtin} (inside : which.name ∈ names) :
    a.store.builtin which = b.store.builtin which := by
  rw [← Store.get_name, ← Store.get_name, h.get _ inside]

theorem eval (h : a.AgreeOn names b) {e : Expr} (inside : e.names ⊆ names) :
    a.eval e = b.eval e := by
  unfold World.eval
  rw [h.record, Expr.eval_congr fun name member => h.get name (inside member)]

theorem evalAll (h : a.AgreeOn names b) {args : List Expr}
    (inside : args.flatMap Expr.names ⊆ names) : a.evalAll args = b.evalAll args := by
  induction args with
  | nil => rfl
  | cons e rest ih =>
    rw [List.flatMap_cons, List.append_subset] at inside
    rw [World.evalAll, World.evalAll, h.eval inside.1, ih inside.2]

theorem newValue (h : a.AgreeOn names b) {s : Simple} (inside : s.names ⊆ names) :
    s.newValue a = s.newValue b := by
  cases s with
  | assign name op e place =>
    rw [Simple.names, List.cons_subset] at inside
    cases op with
    | none => exact h.eval inside.2
    | some op => rw [Simple.newValue, Simple.newValue, h.eval inside.2, h.get name inside.1]
  | increment name step side place =>
    have get_eq := h.get name (inside List.mem_cons_self)
    rw [Simple.newValue_increment, Simple.newValue_increment, get_eq]

theorem set (h : a.AgreeOn names b) (name : String) (value : Value) :
    AgreeOn names { a with store := a.store.set name value }
      { b with store := b.store.set name value } where
  record := h.record
  sink := h.sink
  get other member := by rw [Store.get_set, Store.get_set, h.get other member]

theorem withRecord (h : a.AgreeOn names b) (fs_inside : Builtin.fs.name ∈ names) (line : String)
    (nr : Value) : AgreeOn names (a.withRecord line nr) (b.withRecord line nr) := by
  have fs_eq : a.store.fs = b.store.fs := h.builtin fs_inside
  have record_eq : (a.withRecord line nr).record = (b.withRecord line nr).record := by
    simp only [World.withRecord, fs_eq]
  refine ⟨record_eq, h.sink, fun name member => ?_⟩
  rw [World.store_withRecord, World.store_withRecord, record_eq]
  simp only [Store.get_set, h.get name member]

end World.AgreeOn

namespace Process

/-- Ends alike in worlds that agree, and they agree afterwards. -/
def Respects (names : List String) (f : Process) : Prop :=
  ∀ a b, a.AgreeOn names b →
    (f a).ending = (f b).ending ∧ (f a).world.AgreeOn names (f b).world

variable {names : List String}

theorem respects_attempt {event : Event} {step : World → Except RunFault World}
    (h : ∀ {a b}, a.AgreeOn names b →
      (∃ fault, step a = .error fault ∧ step b = .error fault) ∨
      ∃ next next', step a = .ok next ∧ step b = .ok next' ∧ next.AgreeOn names next') :
    Respects names (attempt event step) := by
  intro a b agree
  rcases h agree with ⟨fault, fails, fails'⟩ | ⟨next, next', taken, taken', agree'⟩
  · simpa [attempt, fails, fails'] using agree
  · simpa [attempt, taken, taken'] using agree'

theorem respects_print {args : List Expr} (place : Location)
    (inside : args.flatMap Expr.names ⊆ names) (builtins : ∀ b : Builtin, b.name ∈ names) :
    Respects names (attempt (.statement (.print args place)) (World.print args)) := by
  apply respects_attempt
  intro a b agree
  have values_eq := agree.evalAll inside
  have ofs_eq : a.store.ofs = b.store.ofs := agree.builtin (builtins .ofs)
  have ors_eq : a.store.ors = b.store.ors := agree.builtin (builtins .ors)
  cases values : b.evalAll args with
  | error fault =>
    exact .inl ⟨fault, World.print_of_evalAll_error (values_eq.trans values),
      World.print_of_evalAll_error values⟩
  | ok values' =>
    have printed_eq : a.printed values' = b.printed values' := by
      rw [World.printed, World.printed, ofs_eq, ors_eq]
    rw [World.print_of_evalAll values, World.print_of_evalAll (values_eq.trans values), printed_eq,
      agree.sink]
    cases b.sink.write (b.printed values') with
    | error fault => exact .inl ⟨fault, rfl, rfl⟩
    | ok sink => exact .inr ⟨_, _, rfl, rfl, agree.record, rfl, agree.get⟩

theorem respects_simple {s : Simple} (inside : s.names ⊆ names) : Respects names (simple s) := by
  apply respects_attempt
  intro a b agree
  rw [Simple.run, Simple.run, agree.newValue inside]
  cases s.newValue b with
  | error fault => exact .inl ⟨fault, rfl, rfl⟩
  | ok v => exact .inr ⟨_, _, rfl, rfl, agree.set s.target v⟩

theorem respects_record (line : String) (builtins : ∀ b : Builtin, b.name ∈ names) :
    Respects names (attempt (.record line) (·.beginRecord line)) := by
  apply respects_attempt
  intro a b agree
  have nr_eq : a.store.nr = b.store.nr := agree.builtin (builtins .nr)
  rw [World.beginRecord, World.beginRecord, nr_eq]
  cases Value.arithmetic .add b.store.nr (.int 1) with
  | error fault => exact .inl ⟨.operator fault, rfl, rfl⟩
  | ok nr =>
    exact .inr ⟨a.withRecord line nr, b.withRecord line nr, rfl, rfl,
      agree.withRecord (builtins .fs) line nr⟩

/-- Respect is kept by all operations on processes. -/
theorem respects_congruence (builtins : ∀ b : Builtin, b.name ∈ names) :
    RunCongruence (fun a => a.names ⊆ names) fun f _ => Respects names f where
  ended _ _ _ agree := ⟨rfl, agree⟩
  cutOff _ _ _ agree := ⟨rfl, agree⟩
  turn _ related a b agree := related a b agree
  print _ place inside := respects_print place inside builtins
  change _ inside := respects_simple inside
  record line := respects_record line builtins
  bind _ _ first rest := by
    intro a b agree
    obtain ⟨ending_eq, agree'⟩ := first a b agree
    unfold bind
    rw [ending_eq]
    exact rest _ _ _ agree'
  test e _ _ inside related := by
    intro a b agree
    have value_eq : a.eval e = b.eval e := agree.eval inside
    simp only [read, value_eq]
    exact related _ a b agree
  separator related := by
    intro a b agree
    have rs_eq : a.store.rs = b.store.rs := agree.builtin (builtins .rs)
    simp only [read, rs_eq]
    exact related _ a b agree

end Process

/-- The names that occur in an action include the variable that it changes. -/
theorem Action.target_mem_names {a : Action} {name : String} (h : a.target? = some name) :
    name ∈ a.names := by
  cases a with
  | change s =>
    obtain rfl : s.target = name := Option.some.inj h
    cases s <;> exact List.mem_cons_self
  | _ => simp [target?] at h

/-- The names that occur in a program, and those built in. -/
def Program.scope (program : Program) : List String :=
  program.names ++ Builtin.all.map Builtin.name

theorem Program.builtin_mem_scope (program : Program) (b : Builtin) : b.name ∈ program.scope :=
  List.mem_append_right _ (List.mem_map_of_mem (by cases b <;> decide))

theorem Program.names_subset_scope {program : Program} {a : Action} (inside : a ∈ program.actions) :
    a.names ⊆ program.scope :=
  fun _ member => List.mem_append_left _ (List.mem_flatMap.mpr ⟨a, inside, member⟩)

theorem World.get_attempt_print (world : World) (args : List Expr) (name : String) :
    (world.attempt (world.print args)).2.store.get name = world.store.get name := by
  obtain ⟨sink, ends⟩ := world.attempt_print args
  rw [ends]

theorem Simple.get_attempt_run (s : Simple) (world : World) {name : String}
    (other : s.target ≠ name) :
    (world.attempt (s.run world)).2.store.get name = world.store.get name := by
  rcases s.run_cases world with ⟨fault, -, fails⟩ | ⟨v, -, taken⟩
  · rw [fails]
    rfl
  · rw [taken]
    exact (Store.get_set ..).trans (if_neg other)

/-- A variable other than the counters keeps its value through all actions that do not change it. -/
theorem unchanged_invariant {name : String} (not_nf : Builtin.nf.name ≠ name)
    (not_nr : Builtin.nr.name ≠ name) (value : Value) :
    Invariant (fun a => a.target? ≠ some name)
      (fun (_ : Unit) world => world.store.get name = value) fun _ _ => () where
  plain _ _ _ holds := holds
  print _ _ _ world holds := (world.get_attempt_print _ name).trans holds
  change {s} other _ world holds :=
    (s.get_attempt_run world fun same => other (congrArg some same)).trans holds
  record line _ world holds := by
    rcases world.beginRecord_cases line with ⟨fault, -, fails⟩ | ⟨nr, -, begun⟩
    · rw [fails]
      exact holds
    · rw [begun]
      change (world.withRecord line nr).store.get name = value
      rw [World.store_withRecord, Store.get_set, Store.get_set, if_neg not_nf, if_neg not_nr]
      exact holds

theorem Program.get_unchanged {program : Program} {name : String}
    (not_nf : Builtin.nf.name ≠ name) (not_nr : Builtin.nr.name ≠ name)
    (other : name ∉ program.targets) (fuel : Nat) (input : String) (world : World) :
    (program.run fuel input world).2.store.get name = world.store.get name := by
  have actions_ok : ∀ a ∈ program.actions, a.target? ≠ some name :=
    fun a inside target => other (List.mem_filterMap.mpr ⟨a, inside, target⟩)
  rw [← outcome_process]
  exact ((unchanged_invariant not_nf not_nr (world.store.get name)).program program actions_ok fuel
    input (a := ()) rfl).2

namespace Session

variable (program : Program) (record : Record) (fuel : Nat) (input : String) (room : Option Nat)

theorem get_outside_scope {name : String} (outside : name ∉ program.scope) (store : Store) :
    (run fuel ⟨program, store, record⟩ input room).session.store.get name = store.get name := by
  have not_builtin (b : Builtin) : b.name ≠ name :=
    fun same => outside (same ▸ program.builtin_mem_scope b)
  apply Program.get_unchanged (not_builtin .nf) (not_builtin .nr)
  intro target
  obtain ⟨a, inside, changes⟩ := List.mem_filterMap.mp target
  exact outside (Program.names_subset_scope inside (Action.target_mem_names changes))

theorem run_alike {store store' : Store}
    (agree : ∀ name ∈ program.scope, store.get name = store'.get name) :
    let result := run fuel ⟨program, store, record⟩ input room
    let result' := run fuel ⟨program, store', record⟩ input room
    result.ending = result'.ending ∧ result.writes = result'.writes ∧
    result.session.record = result'.session.record ∧
    ∀ name ∈ program.scope,
      result.session.store.get name = result'.session.store.get name := by
  have respects := (Process.respects_congruence program.builtin_mem_scope).program
    (Nat.le_refl fuel) program (fun _ inside => Program.names_subset_scope inside) input
  rcases respects (world ⟨program, store, record⟩ room) (world ⟨program, store', record⟩ room)
    ⟨rfl, rfl, agree⟩ with ⟨ending_eq, agree'⟩
  rw [run_eq_course, run_eq_course]
  exact ⟨ending_eq, congrArg Sink.written agree'.sink, agree'.record, agree'.get⟩

/-- Sessions with one program and record whose variables agree on the scope of the program run
alike, and agree on it afterwards. All other variables stay as they are. -/
theorem run_scope {store store' : Store}
    (agree : ∀ name ∈ program.scope, store.get name = store'.get name) :
    let result := run fuel ⟨program, store, record⟩ input room
    let result' := run fuel ⟨program, store', record⟩ input room
    result.ending = result'.ending ∧ result.writes = result'.writes ∧
    result.session.record = result'.session.record ∧
    (∀ name ∈ program.scope,
      result.session.store.get name = result'.session.store.get name) ∧
    ∀ name ∉ program.scope, result.session.store.get name = store.get name ∧
      result'.session.store.get name = store'.get name := by
  intro result result'
  rcases run_alike program record fuel input room agree with
    ⟨ending_eq, writes_eq, record_eq, scope_eq⟩
  refine ⟨ending_eq, writes_eq, record_eq, scope_eq, fun name outside => ?_⟩
  constructor
  · exact get_outside_scope program record fuel input room outside store
  · exact get_outside_scope program record fuel input room outside store'

/-- The program `{ n++; print n, s; s = s + n }`. -/
def stepping : Program :=
  [⟨.eachRecord none,
    [.simple (.increment "n" .up .after .start), .print [.var "n" .start, .var "s" .start] .start,
      .simple (.assign "s" none
        (.binary (.arith .add) (.var "s" .start) (.var "n" .start) .start) .start)],
    .start⟩]

/-- Nothing is set in the first session; in the second one `n` is zero, and a variable that does not
matter holds a text. -/
theorem run_scope_stepping :
    let unset : Session := ⟨stepping, .start, .start⟩
    let zero : Session := ⟨stepping, (Store.start.set "n" .zero).set "other" (.text "kept"), .start⟩
    (unset.run 9 "a\nb" none).writes = ["1 0\n", "2 1\n"] ∧
    (zero.run 9 "a\nb" none).writes = ["1 0\n", "2 1\n"] ∧
    (zero.run 9 "a\nb" none).session.store.get "s" = .int 3 ∧
    (zero.run 9 "a\nb" none).session.store.get "other" = .text "kept" := by
  intro unset zero
  have agree : ∀ name ∈ stepping.scope, unset.store.get name = zero.store.get name := by
    decide +kernel
  have alike := run_scope stepping .start 9 "a\nb" none agree
  have writes_eq : (unset.run 9 "a\nb" none).writes = ["1 0\n", "2 1\n"] := by decide +kernel
  refine ⟨writes_eq, alike.2.1.symm.trans writes_eq, ?_, ?_⟩
  · rw [← alike.2.2.2.1 "s" (by decide +kernel)]
    decide +kernel
  · rw [(alike.2.2.2.2 "other" (by decide +kernel)).2]
    decide +kernel

end Session

end FieldScript
