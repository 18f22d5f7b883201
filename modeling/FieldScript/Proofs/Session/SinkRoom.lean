import FieldScript.Proofs.Eval.Fuel
import FieldScript.Proofs.Eval.Invariant

/-!
# Sinks with little room

A run into a sink with room for a number of writes is the run into an unlimited sink, stopped when
it is about to write once more than that. Every `print` whose arguments all have values writes once,
and nothing else writes.
-/

namespace FieldScript

namespace Moment

/-- What is written at a moment. -/
def text? (moment : Moment) : Option String :=
  match moment.event with
  | .statement (.print args _) => (moment.world.evalAll args).toOption.map moment.world.printed
  | _ => none

theorem text?_of_plain {event : Event} (plain : event.isPlain = true) (world : World) :
    text? ⟨event, world⟩ = none := by
  cases event with
  | record line => rfl
  | rule rule => rfl
  | statement s => cases s <;> simp_all [Event.isPlain, text?]

end Moment

namespace Course

def writing (course : Course) : List Moment :=
  course.moments.filter fun moment => moment.text?.isSome

def texts (course : Course) : List String := course.moments.filterMap Moment.text?

theorem length_filterMap_text? (moments : List Moment) :
    (moments.filterMap Moment.text?).length =
      (moments.filter fun moment => moment.text?.isSome).length := by
  induction moments with
  | nil => rfl
  | cons moment rest ih => cases text_eq : moment.text? <;> simp [text_eq, ih]

theorem writing_append (first next : Course) :
    (first.append next).writing = first.writing ++ next.writing :=
  List.filter_append ..

/-- Where a course is about to write once more than so many times. -/
theorem split_of_writing {course : Course} {count : Nat} {moment : Moment}
    (h : course.writing[count]? = some moment) :
    ∃ before after, course.moments = before ++ moment :: after ∧ moment.text?.isSome ∧
      (before.filterMap Moment.text?).length = count := by
  obtain ⟨inside, at_count⟩ := List.getElem?_eq_some_iff.mp h
  have cut : course.writing =
      course.writing.take count ++ moment :: course.writing.drop (count + 1) := by
    rw [← at_count, ← List.drop_eq_getElem_cons inside, List.take_append_drop]
  obtain ⟨first, rest, moments_eq, first_eq, rest_eq⟩ := List.filter_eq_append_iff.mp cut
  obtain ⟨silent, after, rest_split, is_silent, writes, -⟩ := List.filter_eq_cons_iff.mp rest_eq
  refine ⟨first ++ silent, after, ?_, writes, ?_⟩
  · rw [moments_eq, rest_split, List.append_assoc]
  · rw [length_filterMap_text?, List.filter_append, first_eq, List.filter_eq_nil_iff.mpr is_silent]
    simp only [List.append_nil, List.length_take]
    omega

end Course

namespace World

def withRoom (world : World) (room : Nat) : World :=
  { world with sink := { world.sink with room := some room } }

theorem eval_withRoom (world : World) (room : Nat) (e : Expr) :
    (world.withRoom room).eval e = world.eval e := rfl

theorem evalAll_withRoom (world : World) (room : Nat) (args : List Expr) :
    (world.withRoom room).evalAll args = world.evalAll args := by
  induction args with
  | nil => rfl
  | cons e rest ih => rw [evalAll, evalAll, ih, eval_withRoom]

end World

/-- The outcome of a course with room for so many writes only. -/
def Course.stoppedAt (course : Course) (room : Nat) : Outcome :=
  match course.writing[room]? with
  | none => (course.ending, course.world.withRoom (room - course.writing.length))
  | some moment => (.failed .sinkClosed, moment.world.withRoom 0)

theorem Course.stoppedAt_append {first next : Course} {room : Nat} :
    (first.append next).stoppedAt room =
      if room < first.writing.length then first.stoppedAt room
      else next.stoppedAt (room - first.writing.length) := by
  unfold stoppedAt
  rw [writing_append, List.getElem?_append, List.length_append, Nat.sub_add_eq]
  by_cases inside : room < first.writing.length
  · simp only [inside, if_true, List.getElem?_eq_getElem inside]
  · simp only [inside, if_false]
    rfl

/-- Neither looks at the sink nor touches it. -/
def SinkBlind (step : World → Except RunFault World) : Prop :=
  ∀ world sink, step { world with sink } = (step world).map fun next => { next with sink }

theorem SinkBlind.sink_eq {step : World → Except RunFault World} (blind : SinkBlind step)
    {world next : World} (taken : step world = .ok next) : next.sink = world.sink := by
  have same : step world = (step world).map fun next => { next with sink := world.sink } :=
    blind world world.sink
  rw [taken] at same
  have next_eq : next = { next with sink := world.sink } := Except.ok.inj same
  rw [next_eq]

theorem Simple.sinkBlind (s : Simple) : SinkBlind s.run := by
  intro world sink
  have value_eq : s.newValue { world with sink } = s.newValue world := by cases s <;> rfl
  unfold run
  rw [value_eq]
  cases s.newValue world <;> rfl

theorem World.sinkBlind_beginRecord (line : String) : SinkBlind (·.beginRecord line) := by
  intro world sink
  change World.beginRecord _ _ = (World.beginRecord _ _).map _
  unfold beginRecord
  cases Value.arithmetic .add world.store.nr (.int 1) <;> rfl

namespace Process

/-- The outcome with limited room is that of the unlimited course, stopped in time. -/
def StopsInTime (f : Process) : Prop :=
  ∀ world, world.sink.room = none →
    (f world).world.sink.room = none ∧
      ∀ room, (f (world.withRoom room)).outcome = (f world).stoppedAt room

theorem stopsInTime_ended (ending : Ending) : StopsInTime (ended ending) :=
  fun _ unlimited => ⟨unlimited, fun _ => rfl⟩

theorem stopsInTime_attempt {event : Event} {step : World → Except RunFault World}
    (silent : ∀ world, Moment.text? ⟨event, world⟩ = none) (blind : SinkBlind step) :
    StopsInTime (attempt event step) := by
  intro world unlimited
  have stopped (room : Nat) : (attempt event step world).stoppedAt room =
      ((attempt event step world).ending, (attempt event step world).world.withRoom room) := by
    simp [attempt, Course.stoppedAt, Course.writing, silent]
  have limited (room : Nat) : (attempt event step (world.withRoom room)).outcome =
      (world.withRoom room).attempt
        ((step world).map fun next => { next with sink := (world.withRoom room).sink }) :=
    congrArg (World.attempt _) (blind world (world.withRoom room).sink)
  cases taken : step world with
  | error fault =>
    refine ⟨by simpa [attempt, taken] using unlimited, fun room => ?_⟩
    rw [stopped, limited]
    simp [attempt, taken, Except.map]
  | ok next =>
    have sink_eq := blind.sink_eq taken
    refine ⟨by simpa [attempt, taken, sink_eq] using unlimited, fun room => ?_⟩
    rw [stopped, limited]
    simp [attempt, taken, Except.map, World.withRoom, sink_eq]

theorem stopsInTime_print (args : List Expr) (place : Location) :
    StopsInTime (attempt (.statement (.print args place)) (World.print args)) := by
  intro world unlimited
  cases values_eq : world.evalAll args with
  | error fault =>
    have fails := World.print_of_evalAll_error values_eq
    refine ⟨by simpa [attempt, fails] using unlimited, fun room => ?_⟩
    have fails' := World.print_of_evalAll_error
      ((World.evalAll_withRoom world room args).trans values_eq)
    simp [attempt, Course.outcome, Course.stoppedAt, Course.writing, Moment.text?, values_eq,
      fails, fails', Except.toOption]
  | ok values =>
    let after := { world with sink := ⟨world.printed values :: world.sink.newest, none⟩ }
    have prints : World.print args world = .ok after := by
      rw [World.print_of_evalAll values_eq, Sink.write, unlimited]
      rfl
    have prints' (room : Nat) := World.print_of_evalAll
      ((World.evalAll_withRoom world room args).trans values_eq)
    refine ⟨by simp [attempt, prints, after], fun room => ?_⟩
    -- Without room the write is refused in the world of this moment; otherwise room is left for one
    -- write less.
    cases room with
    | zero =>
      have refused : World.print args (world.withRoom 0) = .error .sinkClosed := prints' 0
      simp [attempt, Course.outcome, Course.stoppedAt, Course.writing, Moment.text?, values_eq,
        refused, Except.toOption]
    | succ room =>
      have written : World.print args (world.withRoom (room + 1)) = .ok (after.withRoom room) :=
        prints' (room + 1)
      simp [attempt, Course.outcome, Course.stoppedAt, Course.writing, Moment.text?, values_eq,
        prints, written, Except.toOption]

theorem stopsInTime_bind {f : Process} {next : Ending → Process} (sequel : IsSequel next)
    (first : StopsInTime f) (rest : ∀ ending, StopsInTime (next ending)) :
    StopsInTime (f.bind next) := by
  intro world unlimited
  obtain ⟨middle_unlimited, first_limited⟩ := first world unlimited
  obtain ⟨final_unlimited, rest_limited⟩ := rest (f world).ending _ middle_unlimited
  refine ⟨final_unlimited, fun room => ?_⟩
  change (next (f (world.withRoom room)).outcome.1 (f (world.withRoom room)).outcome.2).outcome =
    ((f world).append _).stoppedAt room
  rw [Course.stoppedAt_append, first_limited]
  by_cases inside : room < (f world).writing.length
  · have stopped : (f world).stoppedAt room =
        (.failed .sinkClosed, (f world).writing[room].world.withRoom 0) := by
      simp only [Course.stoppedAt, List.getElem?_eq_getElem inside]
    rw [if_pos inside, stopped, sequel.1]
    rfl
  · have goes_on : (f world).stoppedAt room =
        ((f world).ending, (f world).world.withRoom (room - (f world).writing.length)) := by
      simp only [Course.stoppedAt, List.getElem?_eq_none (Nat.le_of_not_lt inside)]
    rw [if_neg inside, goes_on]
    exact rest_limited _

theorem stopsInTime_congruence : RunCongruence (fun _ => True) fun f _ => StopsInTime f where
  ended := stopsInTime_ended
  cutOff _ := stopsInTime_ended _
  turn plain related world unlimited := by
    obtain ⟨final_unlimited, limited⟩ := related world unlimited
    refine ⟨final_unlimited, fun room => ?_⟩
    have silent := Moment.text?_of_plain plain world
    simpa [turn, Course.outcome, Course.stoppedAt, Course.writing, silent] using limited room
  print args place _ := stopsInTime_print args place
  change s _ := stopsInTime_attempt (fun _ => rfl) s.sinkBlind
  record line := stopsInTime_attempt (fun _ => rfl) (World.sinkBlind_beginRecord line)
  bind sequel _ first rest := stopsInTime_bind sequel first rest
  test e _ _ _ related world := related (world.eval e) world
  separator related world := related world.store.rs.display world

end Process

/-- The sink holds what the moments so far have written. -/
theorem sink_invariant (start : List String) :
    Invariant (fun _ => True) (fun texts world => world.sink = ⟨texts.reverse ++ start, none⟩)
      fun texts moment => texts ++ moment.text?.toList where
  plain plain _ _ holds := by simpa [Moment.text?_of_plain plain] using holds
  print place _ texts world holds := by
    cases values_eq : world.evalAll _ with
    | error fault =>
      rw [World.print_of_evalAll_error values_eq]
      simpa [Moment.text?, values_eq, Except.toOption] using holds
    | ok values =>
      rw [World.print_of_evalAll values_eq, Sink.write, holds]
      simp [Moment.text?, values_eq, Except.toOption, Except.map]
  change {s} _ texts world holds := by
    rcases s.run_cases world with ⟨fault, -, fails⟩ | ⟨v, -, taken⟩
    · simpa [Moment.text?, fails] using holds
    · simpa [Moment.text?, taken] using holds
  record line texts world holds := by
    rcases world.beginRecord_cases line with ⟨fault, -, fails⟩ | ⟨nr, -, begun⟩
    · simpa [Moment.text?, fails] using holds
    · simpa [Moment.text?, begun, World.withRecord] using holds

theorem foldl_texts (texts : List String) (moments : List Moment) :
    moments.foldl (fun texts moment => texts ++ moment.text?.toList) texts =
      texts ++ moments.filterMap Moment.text? := by
  induction moments generalizing texts with
  | nil => simp
  | cons moment rest ih => cases text_eq : moment.text? <;> simp [ih, text_eq]

namespace Session

variable (fuel : Nat) (session : Session) (input : String)

/-- At every moment of a run the sink holds what was written at the moments before, and at its end
what was written in all. -/
theorem sink_along :
    (∀ before moment after, (session.course fuel input none).moments = before ++ moment :: after →
      moment.world.sink.written = before.filterMap Moment.text?) ∧
    (session.course fuel input none).world.sink.written =
      (session.course fuel input none).texts := by
  have start_sink : (session.world none).sink = ⟨[].reverse ++ [], none⟩ := rfl
  rcases (sink_invariant []).program session.program (fun _ _ => trivial) fuel input start_sink with
    ⟨along, final⟩
  constructor
  · intro before moment after split
    have sink_eq := along.at_moment split
    rw [foldl_texts] at sink_eq
    simp [sink_eq, Sink.written]
  · rw [foldl_texts] at final
    simp [course, final, Sink.written, Course.texts]

theorem writes_eq_texts :
    (session.run fuel input none).writes = (session.course fuel input none).texts := by
  rw [run_eq_course]
  exact (session.sink_along fuel input).2

theorem run_of_room (room : Nat) :
    session.run fuel input (some room) =
      session.resultOf ((session.course fuel input none).stoppedAt room) := by
  have stops := Process.stopsInTime_congruence.program (Nat.le_refl fuel) session.program
    (fun _ _ => trivial) input
  rw [run_eq_course]
  exact congrArg session.resultOf ((stops (session.world none) rfl).2 room)

theorem length_writes :
    (session.run fuel input none).writes.length =
      (session.course fuel input none).writing.length := by
  rw [writes_eq_texts]
  exact Course.length_filterMap_text? _

theorem run_of_enough_room {room : Nat}
    (enough : (session.run fuel input none).writes.length ≤ room) :
    session.run fuel input (some room) = session.run fuel input none := by
  rw [length_writes] at enough
  rw [run_of_room, Course.stoppedAt, List.getElem?_eq_none enough, run_eq_course]
  rfl

/-- A run without room for a write, and its course with unlimited room. It fails in the state in
which it is about to write once too often, and what it has written stays. -/
structure StopsBefore (room : Nat) (before : List Moment) (moment : Moment) (after : List Moment) :
    Prop where
  moments_eq : (session.course fuel input none).moments = before ++ moment :: after
  writes : moment.text?.isSome
  written_eq : before.filterMap Moment.text? = (session.run fuel input none).writes.take room
  fails : ∀ more, fuel ≤ more → session.run more input (some room) =
    ⟨.failed .sinkClosed, (session.run fuel input none).writes.take room,
      ⟨session.program, moment.world.store, moment.world.record⟩⟩

/-- A `print` whose arguments have values writes their texts once, and no other one writes. -/
structure PrintsOnce (args : List Expr) (place : Location) (world : World) : Prop where
  writes : ∀ values, world.evalAll args = .ok values →
    Moment.text? ⟨.statement (.print args place), world⟩ =
      some (world.store.ofs.display.intercalate (values.map Value.display) ++
        world.store.ors.display)
  silent : ∀ fault, world.evalAll args = .error fault →
    Moment.text? ⟨.statement (.print args place), world⟩ = none

/-- A run writes what its prints write. With room for all of it a run is as with unlimited room, and
with less it stops. -/
structure KeepsToRoom (room : Nat) : Prop where
  writes_eq : (session.run fuel input none).writes =
    (session.course fuel input none).moments.filterMap Moment.text?
  enough : (session.run fuel input none).writes.length ≤ room →
    session.run fuel input (some room) = session.run fuel input none
  little : room < (session.run fuel input none).writes.length →
    ∃ before moment after, session.StopsBefore fuel input room before moment after
  prints : ∀ args place world, PrintsOnce args place world

theorem stopsBefore_of_little_room {room : Nat}
    (little : room < (session.run fuel input none).writes.length) :
    ∃ before moment after, session.StopsBefore fuel input room before moment after := by
  rw [length_writes] at little
  obtain ⟨moment, about⟩ :
      ∃ moment, (session.course fuel input none).writing[room]? = some moment :=
    ⟨_, List.getElem?_eq_getElem little⟩
  obtain ⟨before, after, split, writes, count⟩ := Course.split_of_writing about
  have written_eq : before.filterMap Moment.text? =
      (session.run fuel input none).writes.take room := by
    rw [writes_eq_texts, Course.texts, split, List.filterMap_append, ← count, List.take_left]
  have stopped : session.run fuel input (some room) =
      ⟨.failed .sinkClosed, (session.run fuel input none).writes.take room,
        ⟨session.program, moment.world.store, moment.world.record⟩⟩ := by
    rw [run_of_room, Course.stoppedAt, about, ← written_eq,
      ← (session.sink_along fuel input).1 before moment after split]
    rfl
  refine ⟨before, moment, after, split, writes, written_eq, fun more le => ?_⟩
  rw [← stopped]
  exact Session.run_of_le le (by simp [stopped])

theorem printsOnce (args : List Expr) (place : Location) (world : World) :
    PrintsOnce args place world := by
  constructor
  · intro values values_eq
    simp [Moment.text?, values_eq, Except.toOption, World.printed]
  · intro fault fault_eq
    simp [Moment.text?, fault_eq, Except.toOption]

/-- Every run keeps to the room of its sink. -/
theorem run_with_room (fuel : Nat) (session : Session) (input : String) (room : Nat) :
    session.KeepsToRoom fuel input room := by
  constructor
  · exact session.writes_eq_texts fuel input
  · exact run_of_enough_room fuel session input
  · exact stopsBefore_of_little_room fuel session input
  · exact printsOnce

/-- The program `BEGIN { for (;;) { x++; print x } }`. -/
def counting : Program :=
  [⟨.atStart,
    [.forLoop ⟨none, none, none⟩
      [.simple (.increment "x" .up .after .start), .print [.var "x" .start] .start] .start],
    .start⟩]

/-- The endless run of `counting` ends when there is no room for a third write, and `x` is three. -/
theorem counting_with_room :
    let session := ofProgram counting
    (session.run 3 "" none).writes.length = 3 ∧
    session.run 3 "" (some 3) = session.run 3 "" none ∧
    (∀ more, 3 ≤ more →
      (session.run more "" (some 2)).ending = .failed .sinkClosed ∧
      (session.run more "" (some 2)).writes = ["1\n", "2\n"] ∧
      (session.run more "" (some 2)).session.store.get "x" = .int 3) ∧
    Moment.text? ⟨.statement (.print [.literal (.int 7) .start] .start), session.world none⟩ =
      some "7\n" ∧
    Moment.text? ⟨.statement (.print [.unary .negate (.literal (.text "a") .start) .start] .start),
      session.world none⟩ = none := by
  intro session
  have length_eq : (session.run 3 "" none).writes.length = 3 := by decide +kernel
  obtain ⟨before, moment, after, stops⟩ :=
    (run_with_room 3 session "" 2).little (by rw [length_eq]; decide)
  have same (more : Nat) (le : 3 ≤ more) :
      session.run more "" (some 2) = session.run 3 "" (some 2) := by
    rw [stops.fails more le, stops.fails 3 (Nat.le_refl 3)]
  have values_eq : (session.world none).evalAll [.literal (.int 7) .start] = .ok [.int 7] := rfl
  have fault_eq : (session.world none).evalAll
      [.unary .negate (.literal (.text "a") .start) .start] =
        .error (.operator (.nonNumeric "-" "a")) := by rfl
  refine ⟨length_eq, (run_with_room 3 session "" 3).enough (Nat.le_of_eq length_eq), ?_, ?_, ?_⟩
  · intro more le
    rw [same more le]
    decide +kernel
  · rw [((run_with_room 0 session "" 0).prints _ _ _).writes _ values_eq]
    decide +kernel
  · exact ((run_with_room 0 session "" 0).prints _ _ _).silent _ fault_eq

end Session

end FieldScript
