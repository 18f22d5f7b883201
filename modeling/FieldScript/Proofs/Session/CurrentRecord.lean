import FieldScript.Proofs.Session.Causality
import FieldScript.Proofs.Session.Counters
import FieldScript.Proofs.Text.Cutting

/-!
# The current record

From the moment at which a record is begun up to the next one, through all statements, the rules at
the end, calls between runs and the start of later runs, the current record is that line cut at what
`FS` read as when it was begun. Nothing of the line is lost in its fields.
-/

namespace FieldScript

namespace Record

/-- A record of a line that was cut at a separator. Number zero is the line as it stands; the fields
are its words for a single space, its characters for the empty separator, and otherwise what is left
of it when each separator, from the first on, is taken out. -/
structure IsCutFrom (separator line : String) (record : Record) : Prop where
  whole (index : Value) : index.index? = some 0 → record.field index = .text line
  fields_eq : record.fields = splitFields separator line
  at_separator : separator ≠ "" → separator ≠ " " →
    Text.IsCut separator.toList line.toList (record.fields.map String.toList)
  at_blanks : separator = " " → Text.WordsOf line.toList (record.fields.map String.toList)
  everywhere : separator = "" → record.fields = line.toList.map String.singleton

theorem isCutFrom_ofLine (separator line : String) :
    (ofLine separator line).IsCutFrom separator line := by
  refine ⟨fun index zero => by rw [field, zero]; rfl, rfl, fun nonempty not_space => ?_, ?_, ?_⟩
  · have chars_nonempty : separator.toList ≠ [] := by simpa using nonempty
    simp [Text.isCut_iff chars_nonempty, ofLine, splitFields, nonempty, not_space,
      Function.comp_def]
  · rintro rfl
    simp [Text.wordsOf_iff, ofLine, splitFields, Function.comp_def]
  · rintro rfl
    exact List.map_map.trans (List.map_congr_left fun c _ => String.singleton_eq_ofList.symm)

end Record

def Event.line? : Event → Option String
  | .record line => some line
  | _ => none

theorem Event.line?_of_not_record {event : Event} (h : event.isRecord = false) :
    event.line? = none := by
  cases event with
  | record line => cases h
  | _ => rfl

namespace Moment

def begun? (moment : Moment) : Option String :=
  if moment.beginsRecord then moment.event.line? else none

theorem line?_of_begun? {moment : Moment} {line : String} (h : moment.begun? = some line) :
    moment.event.line? = some line := by
  unfold begun? at h
  split at h
  · exact h
  · cases h

/-- The current record after a moment with this one before it. -/
def recordAfter (record : Record) (moment : Moment) : Record :=
  moment.begun?.elim record (Record.ofLine moment.world.store.fs.display)

theorem foldl_recordAfter {moments : List Moment}
    (unbegun : ∀ moment ∈ moments, moment.begun? = none) (record : Record) :
    moments.foldl recordAfter record = record := by
  induction moments with
  | nil => rfl
  | cons moment rest ih =>
    have same : recordAfter record moment = record := by
      rw [recordAfter, unbegun moment List.mem_cons_self]
      rfl
    rw [List.foldl_cons, same, ih fun later member =>
      unbegun later (List.mem_cons_of_mem _ member)]

end Moment

/-- Only beginning a record changes the current one. -/
theorem record_invariant :
    Invariant (fun _ => True) (fun record world => world.record = record) Moment.recordAfter where
  plain {event} plain record world holds := by
    have no_record : event.isRecord = false := by
      cases event <;> simp_all [Event.isPlain, Event.isRecord]
    rw [Moment.recordAfter, Moment.begun?, Event.line?_of_not_record no_record, ite_self]
    exact holds
  print place _ _ world holds := by
    obtain ⟨sink, ends⟩ := world.attempt_print _
    rw [ends]
    exact holds
  change {s} _ _ world holds := by
    rcases s.run_cases world with ⟨fault, -, fails⟩ | ⟨v, -, taken⟩
    · rw [fails]
      exact holds
    · rw [taken]
      exact holds
  record line _ world holds := by
    rcases world.beginRecord_cases line with ⟨fault, -, fails⟩ | ⟨nr, -, begun⟩
    · simpa [Moment.recordAfter, Moment.begun?, Moment.beginsRecord, fails, Except.isOk,
        Except.toBool] using holds
    · simp [Moment.recordAfter, Moment.begun?, Moment.beginsRecord, Event.line?, begun,
        Except.isOk, Except.toBool, World.withRecord]

namespace Program

open Process

variable {program : Program} {fuel : Nat} {world : World}

def lines (moments : List Moment) : List String :=
  moments.filterMap fun moment => moment.event.line?

theorem lines_of_recordCount {course : Course} (no_record : course.recordCount = 0) :
    lines course.moments = [] := by
  refine List.filterMap_eq_nil_iff.mpr fun moment member => Event.line?_of_not_record ?_
  simpa using List.countP_eq_zero.mp no_record moment member

theorem lines_append (first next : Course) :
    lines (first.append next).moments = lines first.moments ++ lines next.moments :=
  List.filterMap_append

theorem lines_onRecord (line : String) (world : World) :
    lines (program.onRecord fuel line world).moments = [line] := by
  by_cases normal : (attempt (.record line) (·.beginRecord line) world).ending = .normal
  · have count : (program.onRecord fuel line world).recordCount = 1 :=
      recordCount_onRecord line world
    rw [onRecord, andThen_of_normal normal] at count ⊢
    rw [Course.recordCount_append] at count
    have first : (attempt (.record line) (·.beginRecord line) world).recordCount = 1 := rfl
    have no_other : (each (Rule.perRecord fuel) program
        (attempt (.record line) (·.beginRecord line) world).world).recordCount = 0 := by omega
    rw [lines_append, lines_of_recordCount no_other, List.append_nil]
    rfl
  · rw [onRecord, andThen_of_ne_normal normal]
    rfl

theorem lines_each (items : List String) (world : World) :
    lines (each (program.onRecord fuel) items world).moments <+: items := by
  induction items generalizing world with
  | nil => exact List.prefix_rfl
  | cons line rest ih =>
    rw [each]
    by_cases normal : (program.onRecord fuel line world).ending = .normal
    · rw [andThen_of_normal normal, lines_append, lines_onRecord]
      exact List.cons_prefix_cons.mpr ⟨rfl, ih _⟩
    · rw [andThen_of_ne_normal normal, lines_onRecord]
      exact List.cons_prefix_cons.mpr ⟨rfl, List.nil_prefix⟩

theorem lines_process {input : String}
    (any : lines (program.process fuel input world).moments ≠ []) :
    ∃ begun, program.Starts world begun ∧
      lines (program.process fuel input world).moments <+:
        Record.split begun.store.rs.display input := by
  obtain ⟨start, start_eq⟩ : ∃ start,
    each (Rule.once fuel) (program.filter Rule.isAtStart) world = start := ⟨_, rfl⟩
  have no_lines : lines start.moments = [] :=
    lines_of_recordCount (start_eq ▸ recordCount_once _ world)
  by_cases normal : start.ending = .normal
  · have started : program.Starts world start.world := by
      refine ⟨fuel, ?_⟩
      rw [← outcome_each (Rule.outcome_once fuel), start_eq, ← normal]
      rfl
    refine ⟨start.world, started, ?_⟩
    rw [process_of_start normal start_eq, lines_append, no_lines, List.nil_append]
    obtain ⟨records, records_eq⟩ : ∃ records, each (program.onRecord fuel)
      (Record.split start.world.store.rs.display input) start.world = records := ⟨_, rfl⟩
    have first : lines records.moments <+: Record.split start.world.store.rs.display input :=
      records_eq ▸ lines_each _ _
    by_cases ends : records.ending = .normal
    · rw [andThen_of_normal (records_eq ▸ ends), records_eq, lines_append,
        lines_of_recordCount (recordCount_once _ _), List.append_nil]
      exact first
    · rw [andThen_of_ne_normal (records_eq ▸ ends), records_eq]
      exact first
  · rw [← start_eq] at normal
    rw [process, andThen_of_ne_normal normal, start_eq] at any
    exact absurd no_lines any

end Program

namespace Session

theorem record_along (session : Session) (calls : List Call) :
    Along (fun record world => world.record = record) Moment.recordAfter session.record
        (session.history calls) ∧
      (session.callAll calls).record =
        (session.history calls).foldl Moment.recordAfter session.record := by
  induction calls generalizing session with
  | nil => exact ⟨trivial, rfl⟩
  | cons call rest ih =>
    obtain ⟨along_rest, after_rest⟩ := ih (session.call call)
    cases call with
    | setSeparator separator => exact ⟨along_rest, after_rest⟩
    | setVariable name text => exact ⟨along_rest, after_rest⟩
    | run fuel input room =>
      have along_run := record_invariant.program session.program (fun _ _ => trivial) fuel input
        (rfl : (session.world room).record = session.record)
      have record_eq : (session.call (.run fuel input room)).record =
          (session.course fuel input room).moments.foldl Moment.recordAfter session.record := by
        rw [call, run_eq_course]
        exact along_run.2
      rw [record_eq] at along_rest after_rest
      refine ⟨along_append.mpr ⟨along_run.1, along_rest⟩, ?_⟩
      rw [history, List.foldl_append]
      exact after_rest

/-- The records that a run turns to are the first ones of its input. -/
theorem lines_before {session : Session} {fuel : Nat} {input : String} {room : Option Nat}
    {before rest : List Moment} {start : Moment} {line : String}
    (turned : (session.course fuel input room).moments = before ++ start :: rest)
    (event_line : start.event.line? = some line) :
    ∃ cut, session.CutsAt room cut ∧
      Program.lines before ++ [line] <+: Record.split cut input := by
  have lines_eq : Program.lines (session.course fuel input room).moments =
      Program.lines before ++ [line] ++ Program.lines rest := by
    rw [turned]
    simp [Program.lines, List.filterMap_append, event_line]
  have any : Program.lines (session.course fuel input room).moments ≠ [] := by simp [lines_eq]
  obtain ⟨world, starts, first⟩ := Program.lines_process any
  refine ⟨world.store.rs.display, ⟨world, starts, rfl⟩, ?_⟩
  exact (List.prefix_append _ (Program.lines rest)).trans (lines_eq ▸ first)

/-- A record that a run begins is one of its input's, the next after those turned to before. From
then on, at every moment of the run and of all later calls, and between these, until another record
is begun, the current record is this line cut at what `FS` read as when it was begun. -/
theorem record_frozen {session : Session} {fuel : Nat} {input : String} {room : Option Nat}
    {before rest : List Moment} {start : Moment} {line : String}
    (turned : (session.course fuel input room).moments = before ++ start :: rest)
    (begun : start.begun? = some line) (later : List Call) :
    let separator := start.world.store.fs.display
    let since := rest ++ (session.run fuel input room).session.history later
    (∃ cut, session.CutsAt room cut ∧
      Program.lines before ++ [line] <+: Record.split cut input) ∧
    (∀ between moment after, since = between ++ moment :: after →
      (∀ moment ∈ between, moment.begun? = none) →
        moment.world.record.IsCutFrom separator line) ∧
    ((∀ moment ∈ since, moment.begun? = none) →
      ((session.run fuel input room).session.callAll later).record.IsCutFrom separator line) := by
  intro separator since
  have history_eq : session.history (.run fuel input room :: later) = before ++ start :: since := by
    have moments_eq : session.moments (.run fuel input room) = before ++ start :: rest := turned
    rw [history, moments_eq, List.append_assoc]
    rfl
  -- What the account of the current record is when none has been begun since.
  have current (record : Record) {between : List Moment}
      (unbegun : ∀ moment ∈ between, moment.begun? = none) :
      ((before ++ start :: between).foldl Moment.recordAfter record).IsCutFrom separator line := by
    rw [List.foldl_append, List.foldl_cons, Moment.foldl_recordAfter unbegun, Moment.recordAfter,
      begun]
    exact Record.isCutFrom_ofLine separator line
  obtain ⟨along, final⟩ := session.record_along (.run fuel input room :: later)
  refine ⟨lines_before turned (Moment.line?_of_begun? begun),
    fun between moment after split unbegun => ?_, fun unbegun => ?_⟩
  · have whole_split : session.history (.run fuel input room :: later) =
        (before ++ start :: between) ++ moment :: after := by
      rw [history_eq, split, List.append_assoc]
      rfl
    rw [along.at_moment whole_split]
    exact current session.record unbegun
  · have same_call : (session.run fuel input room).session.callAll later =
        session.callAll (.run fuel input room :: later) := rfl
    rw [same_call, final, history_eq]
    exact current session.record unbegun

/-- The program `{ FS = 5; NF = 0 } END { x = 1 / 0 }`. -/
def reseparating : Program :=
  let number (n : Int64) := Expr.literal (.int n) .start
  [⟨.eachRecord none,
      [.simple (.assign "FS" none (number 5) .start),
        .simple (.assign "NF" none (number 0) .start)],
      .start⟩,
    ⟨.atEnd,
      [.simple (.assign "x" none (.binary (.arith .divide) (number 1) (number 0) .start) .start)],
      .start⟩]

/-- The second record is cut at the number that the first one has set `FS` to. It is still there
when the run has failed at its end, `FS` has been set and a second run without records has failed
too. -/
theorem record_frozen_reseparating :
    let session := (ofProgram reseparating).setSeparator "aa"
    let after := (session.run 9 "baaac\n \n1525" none).session.callAll
      [.setSeparator "", .run 9 " " none]
    after.store.fs = .text "" ∧ after.record.fields = ["1", "2", ""] ∧
      after.record.IsCutFrom "5" "1525" := by
  intro session after
  let moments := (session.course 9 "baaac\n \n1525" none).moments
  have at_start : moments[4]?.map (fun moment => (moment.begun?, moment.world.store.fs.display)) =
      some (some "1525", "5") := by
    decide +kernel
  obtain ⟨start, fourth, start_eq⟩ := Option.map_eq_some_iff.mp at_start
  obtain ⟨inside, rfl⟩ := List.getElem?_eq_some_iff.mp fourth
  have turned : moments = moments.take 4 ++ moments[4] :: moments.drop 5 := by
    rw [List.getElem_cons_drop, List.take_append_drop]
  obtain ⟨begun, separator⟩ := Prod.mk.inj start_eq
  have frozen := (record_frozen turned begun [.setSeparator "", .run 9 " " none]).2.2
  rw [separator] at frozen
  exact ⟨by decide +kernel, by decide +kernel, frozen (by decide +kernel)⟩

end Session

end FieldScript
