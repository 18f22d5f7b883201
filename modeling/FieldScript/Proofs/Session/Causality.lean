import FieldScript.Proofs.Eval.Fuel
import FieldScript.Proofs.Text.Rejoin

/-!
# Causality

A run looks at its input once, when the rules at the start have ended, and sees nothing of it but
the records. What it does before it fails depends neither on the records after that nor on the rules
at the end.
-/

namespace FieldScript

namespace Event

def isRecord : Event → Bool
  | .record _ => true
  | _ => false

def isEnd : Event → Bool
  | .rule r => r.isAtEnd
  | _ => false

end Event

def Course.recordCount (course : Course) : Nat :=
  course.moments.countP fun moment => moment.event.isRecord

theorem Course.recordCount_append (first next : Course) :
    (first.append next).recordCount = first.recordCount + next.recordCount :=
  List.countP_append

namespace Process

/-- Only a whole run turns to records. -/
theorem recordCount_congruence :
    Congruence (fun _ => True) fun f _ => ∀ world, (f world).recordCount = 0 where
  ended _ _ := rfl
  cutOff _ _ := rfl
  turn {event _ _} plain related world := by
    have no_record : event.isRecord = false := by
      cases event <;> simp_all [Event.isPlain, Event.isRecord]
    simpa [turn, Course.recordCount, no_record] using related world
  print _ _ _ _ := rfl
  change _ _ _ := rfl
  bind _ _ first rest world := by
    unfold bind
    rw [Course.recordCount_append, first, rest]
  test _ _ _ _ related world := related _ world

end Process

namespace Program

open Process

variable {program program' : Program} {fuel : Nat} {world : World}

theorem recordCount_once (rules : List Rule) (world : World) :
    (each (Rule.once fuel) rules world).recordCount = 0 :=
  recordCount_congruence.each (g := Rule.once fuel) rules
    (fun _ _ => recordCount_congruence.once (Nat.le_refl fuel) fun _ _ => trivial) world

theorem recordCount_onRecord (line : String) (world : World) :
    (program.onRecord fuel line world).recordCount = 1 := by
  have rules (next : World) : (each (Rule.perRecord fuel) program next).recordCount = 0 :=
    recordCount_congruence.each (g := Rule.perRecord fuel) program
      (fun _ _ => recordCount_congruence.perRecord (Nat.le_refl fuel) fun _ _ => trivial) next
  have begins : (attempt (.record line) (·.beginRecord line) world).recordCount = 1 := rfl
  by_cases normal : (attempt (.record line) (·.beginRecord line) world).ending = .normal
  · rw [onRecord, andThen_of_normal normal, Course.recordCount_append, begins, rules]
  · rw [onRecord, andThen_of_ne_normal normal, begins]

theorem eq_cons_of_take_succ {line : String} {rest others : List String} {n : Nat}
    (h : others.take (n + 1) = (line :: rest).take (n + 1)) :
    ∃ later, others = line :: later ∧ later.take n = rest.take n := by
  cases others with
  | nil => simp at h
  | cons other later =>
    simp only [List.take_succ_cons, List.cons.injEq] at h
    exact ⟨later, by rw [h.1], h.2⟩

/-- When the records end otherwise than normally, only those turned to matter. -/
theorem each_onRecord_stopped {lines others : List String}
    (stops : (each (program.onRecord fuel) lines world).ending ≠ .normal)
    (shared : others.take (each (program.onRecord fuel) lines world).recordCount =
      lines.take (each (program.onRecord fuel) lines world).recordCount) :
    each (program.onRecord fuel) others world = each (program.onRecord fuel) lines world := by
  induction lines generalizing world others with
  | nil => exact absurd rfl stops
  | cons line rest ih =>
    rw [each] at stops shared ⊢
    by_cases normal : (program.onRecord fuel line world).ending = .normal
    · rw [andThen_of_normal normal] at stops shared ⊢
      rw [Course.recordCount_append, recordCount_onRecord, Nat.add_comm] at shared
      obtain ⟨later, rfl, later_shared⟩ := eq_cons_of_take_succ shared
      rw [each, andThen_of_normal normal, ih stops later_shared]
    · rw [andThen_of_ne_normal normal, recordCount_onRecord] at shared
      obtain ⟨later, rfl, -⟩ := eq_cons_of_take_succ shared
      rw [each, andThen_of_ne_normal normal, andThen_of_ne_normal normal]

def withoutEnd (program : Program) : Program := program.filter fun rule => !rule.isAtEnd

/-- The rules at the end have no part in what is done with records. -/
theorem each_perRecord_withoutEnd (program : Program) :
    each (Rule.perRecord fuel) program.withoutEnd = each (Rule.perRecord fuel) program := by
  unfold withoutEnd
  induction program with
  | nil => rfl
  | cons rule rest ih =>
    cases at_end : rule.isAtEnd with
    | false => simp [at_end, each, ih]
    | true =>
      have trigger_eq : rule.trigger = .atEnd := by simpa [Rule.isAtEnd] using at_end
      have idle : rule.perRecord fuel = ended .normal := by rw [Rule.perRecord, trigger_eq]
      funext world
      rw [List.filter_cons_of_neg (by simp [at_end]), ih, each, idle, andThen_of_normal rfl]
      rfl

theorem onRecord_congr (same : program'.withoutEnd = program.withoutEnd) :
    program'.onRecord fuel = program.onRecord fuel := by
  funext line
  rw [onRecord, onRecord, ← each_perRecord_withoutEnd program', same, each_perRecord_withoutEnd]

theorem filter_isAtStart_congr (same : program'.withoutEnd = program.withoutEnd) :
    program'.filter Rule.isAtStart = program.filter Rule.isAtStart := by
  have not_both (rule : Rule) : (rule.isAtStart && !rule.isAtEnd) = rule.isAtStart := by
    cases trigger_eq : rule.trigger <;> simp [Rule.isAtStart, Rule.isAtEnd, trigger_eq]
  have kept (rules : Program) :
      rules.withoutEnd.filter Rule.isAtStart = rules.filter Rule.isAtStart := by
    rw [withoutEnd, List.filter_filter]
    exact List.filter_congr fun rule _ => not_both rule
  rw [← kept program', same, kept]

/-- The rules at the start end normally, and leave this world. -/
def Starts (program : Program) (world begun : World) : Prop :=
  ∃ fuel, runEach (Rule.act fuel) (program.filter Rule.isAtStart) world = (.normal, begun)

theorem start_of_le {more : Nat} (le : fuel ≤ more) {begun : World}
    (ends : runEach (Rule.act fuel) (program.filter Rule.isAtStart) world = (.normal, begun)) :
    runEach (Rule.act more) (program.filter Rule.isAtStart) world = (.normal, begun) := by
  rw [← outcome_each (Rule.outcome_once _)] at ends ⊢
  have continued : (each (Rule.once fuel) _ world).ContinuedBy (each (Rule.once more) _ world) :=
    continued_congruence.each (program.filter Rule.isAtStart)
      (fun _ _ => continued_congruence.once le fun _ _ => trivial) world
  rcases continued with same | ⟨cut, -⟩
  · rw [← same, ends]
  · have ending_eq : (each (Rule.once fuel) _ world).ending = .normal := congrArg Prod.fst ends
    rw [ending_eq] at cut
    contradiction

/-- How the rules at the start end does not depend on the fuel. -/
theorem Starts.unique {begun begun' : World} (h : program.Starts world begun)
    (h' : program.Starts world begun') : begun = begun' := by
  obtain ⟨fuel, ends⟩ := h
  obtain ⟨fuel', ends'⟩ := h'
  have both := (start_of_le (Nat.le_max_left fuel fuel') ends).symm.trans
    (start_of_le (Nat.le_max_right fuel fuel') ends')
  exact (Prod.mk.inj both).2

theorem run_congr {x y : String}
    (same : ∀ begun, program.Starts world begun →
      Record.split begun.store.rs.display x = Record.split begun.store.rs.display y) :
    program.run fuel x world = program.run fuel y world := by
  unfold run
  cases start_eq : runEach (Rule.act fuel) (program.filter Rule.isAtStart) world with
  | mk ending begun =>
    cases ending with
    | normal =>
      simp only [Outcome.andThen, same begun ⟨fuel, start_eq⟩]
    | _ => rfl

/-- A run that turns to no rule at the end, and does not end normally, ends with its records. -/
theorem records_stop {records : Process} {begun : World} {rules : List Rule}
    (at_end : ∀ rule ∈ rules, rule.isAtEnd = true)
    (stops : (records.andThen (each (Rule.once fuel) rules) begun).ending ≠ .normal)
    (before_end : ∀ moment ∈ (records.andThen (each (Rule.once fuel) rules) begun).moments,
      moment.event.isEnd = false) :
    (records begun).ending ≠ .normal := by
  intro normal
  rw [andThen_of_normal normal] at stops before_end
  cases rules with
  | nil => exact stops rfl
  | cons rule rest =>
    have turned : ⟨.rule rule, (records begun).world⟩ ∈ ((records begun).append
        (each (Rule.once fuel) (rule :: rest) (records begun).world)).moments :=
      List.mem_append_right _ (List.mem_append_left _ List.mem_cons_self)
    have not_at_end : rule.isAtEnd = false := before_end _ turned
    rw [at_end rule List.mem_cons_self] at not_at_end
    contradiction

/-- A run whose rules at the start end normally: the records and the rules at the end follow. -/
theorem process_of_start {start : Course} (normal : start.ending = .normal)
    (start_eq : each (Rule.once fuel) (program.filter Rule.isAtStart) world = start)
    (input : String) :
    program.process fuel input world = start.append
      ((each (program.onRecord fuel) (Record.split start.world.store.rs.display input)).andThen
        (each (Rule.once fuel) (program.filter Rule.isAtEnd)) start.world) := by
  rw [← start_eq] at normal ⊢
  exact andThen_of_normal normal

/-- A run that ends before the rules at the end, but not normally, passes through the same moments
and ends in the same way whatever these rules are, and whatever the records are after those that it
has turned to. -/
theorem process_of_stopped {x y : String}
    (stops : (program.process fuel x world).ending ≠ .normal)
    (before_end : ∀ moment ∈ (program.process fuel x world).moments, moment.event.isEnd = false)
    (shared : ∀ begun, program.Starts world begun →
      (Record.split begun.store.rs.display y).take (program.process fuel x world).recordCount =
        (Record.split begun.store.rs.display x).take (program.process fuel x world).recordCount)
    (same : program'.withoutEnd = program.withoutEnd) :
    program'.process fuel y world = program.process fuel x world := by
  have starts_eq := filter_isAtStart_congr same
  obtain ⟨start, start_eq⟩ : ∃ start,
    each (Rule.once fuel) (program.filter Rule.isAtStart) world = start := ⟨_, rfl⟩
  by_cases normal : start.ending = .normal
  · have started : program.Starts world start.world := by
      refine ⟨fuel, ?_⟩
      rw [← outcome_each (Rule.outcome_once fuel), start_eq, ← normal]
      rfl
    -- The records that the whole run turns to are those of its middle part.
    have no_records : start.recordCount = 0 := start_eq ▸ recordCount_once _ world
    rw [process_of_start normal start_eq] at stops before_end shared ⊢
    have records_stop := records_stop (fun rule member => (List.mem_filter.mp member).2) stops
      fun moment member => before_end moment (List.mem_append_right _ member)
    rw [andThen_of_ne_normal records_stop, Course.recordCount_append, no_records,
      Nat.zero_add] at shared
    have same_records := each_onRecord_stopped records_stop (shared _ started)
    rw [process_of_start normal (starts_eq ▸ start_eq), onRecord_congr same,
      andThen_of_ne_normal records_stop, andThen_of_ne_normal (same_records ▸ records_stop),
      same_records]
  · rw [← start_eq] at normal
    rw [process, process, starts_eq, andThen_of_ne_normal normal, andThen_of_ne_normal normal]

end Program

namespace Session

/-- The text that the next run cuts its input at is what `RS` reads as when the rules at the start
have ended. -/
def CutsAt (session : Session) (room : Option Nat) (separator : String) : Prop :=
  ∃ begun, session.program.Starts (session.world room) begun ∧ begun.store.rs.display = separator

theorem CutsAt.unique {session : Session} {room : Option Nat} {separator separator' : String}
    (h : session.CutsAt room separator) (h' : session.CutsAt room separator') :
    separator = separator' := by
  obtain ⟨begun, starts, rfl⟩ := h
  obtain ⟨begun', starts', rfl⟩ := h'
  rw [starts.unique starts']

theorem run_of_same_records {session : Session} {room : Option Nat} {x y : String}
    (same : ∀ separator, session.CutsAt room separator →
      Record.split separator x = Record.split separator y) (fuel : Nat) :
    session.run fuel x room = session.run fuel y room := by
  rw [run_eq, run_eq, Program.run_congr fun begun starts => same _ ⟨begun, starts, rfl⟩]

theorem run_of_failed {session : Session} {room : Option Nat} {x y : String} {fuel : Nat}
    {fault : RunFault} {program' : Program}
    (fails : (session.run fuel x room).ending = .failed fault)
    (before_end : ∀ moment ∈ (session.course fuel x room).moments, moment.event.isEnd = false)
    (shared : ∀ separator, session.CutsAt room separator →
      (Record.split separator y).take (session.course fuel x room).recordCount =
        (Record.split separator x).take (session.course fuel x room).recordCount)
    (same : program'.withoutEnd = session.program.withoutEnd) :
    run fuel ⟨program', session.store, session.record⟩ y room =
      ⟨.failed fault, (session.run fuel x room).writes,
        ⟨program', (session.run fuel x room).session.store,
          (session.run fuel x room).session.record⟩⟩ := by
  rw [run_eq_course] at fails
  have not_normal : (session.course fuel x room).ending ≠ .normal := by
    intro normal
    have ending_eq : (session.course fuel x room).ending = .failed fault := fails
    rw [ending_eq] at normal
    contradiction
  have same_course : Session.course fuel ⟨program', session.store, session.record⟩ y room =
      session.course fuel x room :=
    Program.process_of_stopped not_normal before_end
      (fun begun starts => shared _ ⟨begun, starts, rfl⟩) same
  rw [run_eq_course, run_eq_course, same_course, ← fails]
  rfl

/-- Runs over inputs with the same records are the same, so the blank pieces between the records do
not matter. A run that fails before it turns to a rule at the end fails in the same way over every
input that has the same records up to there, and whatever the rules at the end are. -/
theorem run_causal (session : Session) (room : Option Nat) (x : String) :
    (∀ y, (∀ separator, session.CutsAt room separator →
        Record.split separator x = Record.split separator y) →
      ∀ fuel, session.run fuel x room = session.run fuel y room) ∧
    (∀ separator, session.CutsAt room separator → separator ≠ "" →
      ∀ fuel, session.run fuel x room =
        session.run fuel (separator.intercalate (Record.split separator x)) room) ∧
    ∀ fuel fault,
      let failed := session.run fuel x room
      let course := session.course fuel x room
      failed.ending = .failed fault →
      (∀ moment ∈ course.moments, moment.event.isEnd = false) →
      ∀ (y : String) (program' : Program),
        (∀ separator, session.CutsAt room separator →
          (Record.split separator y).take course.recordCount =
            (Record.split separator x).take course.recordCount) →
        program'.withoutEnd = session.program.withoutEnd →
        ∀ more, fuel ≤ more → run more ⟨program', session.store, session.record⟩ y room =
          ⟨.failed fault, failed.writes,
            ⟨program', failed.session.store, failed.session.record⟩⟩ := by
  refine ⟨fun y same fuel => run_of_same_records same fuel, ?_, ?_⟩
  · intro separator cuts nonempty fuel
    apply run_of_same_records
    intro separator' cuts'
    rw [cuts'.unique cuts, Record.split_intercalate nonempty]
  · intro fuel fault failed course fails before_end y program' shared same more le
    have fails_too := run_of_failed fails before_end shared same
    rw [← fails_too]
    exact Session.run_of_le le (by simp [fails_too])

/-- The program `BEGIN { RS = ";;" } { RS = "x"; print $1 + 1 } END { print "end" }`. -/
def cutting : Program :=
  [⟨.atStart, [.simple (.assign "RS" none (.literal (.text ";;") .start) .start)], .start⟩,
    ⟨.eachRecord none,
      [.simple (.assign "RS" none (.literal (.text "x") .start) .start),
        .print [.binary (.arith .add) (.field (.literal (.int 1) .start) .start)
          (.literal (.int 1) .start) .start] .start],
      .start⟩,
    ⟨.atEnd, [.print [.literal (.text "end") .start] .start], .start⟩]

/-- Three runs fail at the record `a`, with other blank pieces around the records, with none, and
with another record after it and no rule at the end. -/
theorem run_causal_cutting :
    let session := ofProgram cutting
    let failed := session.run 0 "1;; ;;2;;a;;3" none
    failed.ending = .failed (.operator (.nonNumeric "+" "a")) ∧ failed.writes = ["2\n", "3\n"] ∧
    session.run 0 "\n;;1;;2;;;;a;;3" none = failed ∧
    session.run 0 "1;;2;;a;;3" none = failed ∧
    let other := run 5 (ofProgram cutting.withoutEnd) "1;;2;;a;; 8" none
    other.ending = failed.ending ∧ other.writes = failed.writes ∧
    other.session.store = failed.session.store ∧ other.session.record = failed.session.record := by
  intro session failed
  have cuts : session.CutsAt none ";;" :=
    ⟨{ session.world none with store := Store.start.set "RS" (.text ";;") }, ⟨0, by decide +kernel⟩,
      by decide +kernel⟩
  have causal := run_causal session none "1;; ;;2;;a;;3"
  have fails : failed.ending = .failed (.operator (.nonNumeric "+" "a")) := by decide +kernel
  refine ⟨fails, by decide +kernel, ?_, ?_, ?_⟩
  · refine (causal.1 "\n;;1;;2;;;;a;;3" (fun separator cuts' => ?_) 0).symm
    rw [cuts'.unique cuts]
    decide +kernel
  · have rejoined : ";;".intercalate (Record.split ";;" "1;; ;;2;;a;;3") = "1;;2;;a;;3" := by
      decide +kernel
    rw [← rejoined]
    exact (causal.2.1 ";;" cuts (by decide) 0).symm
  · have before_end : ∀ moment ∈ (session.course 0 "1;; ;;2;;a;;3" none).moments,
        moment.event.isEnd = false := by decide +kernel
    have same := causal.2.2 0 _ fails before_end "1;;2;;a;; 8" cutting.withoutEnd
      (fun separator cuts' => by rw [cuts'.unique cuts]; decide +kernel) (by rfl) 5 (by omega)
    intro other
    rw [show other = _ from same]
    exact ⟨fails.symm, rfl, rfl, rfl⟩

end Session

end FieldScript
