import FieldScript.Proofs.Eval.Course
import FieldScript.Proofs.Eval.Loop

/-!
# Breaks

A `break` is loose in a statement when it stands in none of its loops. Running a statement ends with
a `break` under way only where it turns to one that is loose in it, and no loop does. So a run fails
with a stray `break` only at one that stands in no loop of the program.
-/

namespace FieldScript

mutual

/-- The places of the `break`s that are in no loop of a statement. -/
def Stmt.looseBreaks : Stmt → List Location
  | .ifElse _ thenBranch elseBranch _ => looseBreaksAll thenBranch ++ looseBreaksElse elseBranch
  | .breakLoop place => [place]
  | .block body _ => looseBreaksAll body
  | .print .. | .simple .. | .forLoop .. => []

def looseBreaksElse : Option (List Stmt) → List Location
  | none => []
  | some branch => looseBreaksAll branch

def looseBreaksAll : List Stmt → List Location
  | [] => []
  | s :: rest => s.looseBreaks ++ looseBreaksAll rest

end

def Program.looseBreaks (program : Program) : List Location :=
  program.flatMap fun rule => looseBreaksAll rule.body

theorem exec_forLoop_ne_broke (fuel : Nat) (header : LoopHeader) (body : List Stmt)
    (place site : Location) (world : World) :
    ((Stmt.forLoop header body place).exec fuel world).1 ≠ .broke site := by
  rw [Stmt.exec]
  cases runOptional header.init world with
  | error fault => simp [World.attempt, Outcome.andThen]
  | ok begun =>
    rw [World.attempt_ok]
    change (iterate (loopPass header (execAll fuel body)) fuel begun).1 ≠ .broke site
    rcases outcome_eq : iterate (loopPass header (execAll fuel body)) fuel begun with
      ⟨ending, final⟩
    rcases iterate_loopPass_iff.mp outcome_eq with ⟨-, cut⟩ | ⟨_, _, _, -, last⟩
    · simp [cut]
    · exact last.ne_broke site

namespace Course

/-- The last thing that a course turns to is the `break` at this place, and nothing has changed
since. -/
def EndsAtBreak (course : Course) (place : Location) : Prop :=
  course.moments.getLast? = some ⟨.statement (.breakLoop place), course.world⟩

theorem EndsAtBreak.append {next : Course} {place : Location} (first : Course)
    (h : next.EndsAtBreak place) : (first.append next).EndsAtBreak place := by
  change (first.moments ++ next.moments).getLast? = _
  rw [List.getLast?_append, h]
  rfl

end Course

namespace Process

/-- Where a process ends like this for a place, that is one of the places, and it has just turned to
the `break` there. -/
def EndsOnlyAt (ending : Location → Ending) (places : List Location) (f : Process) : Prop :=
  ∀ world place, (f world).ending = ending place →
    place ∈ places ∧ (f world).EndsAtBreak place

variable {ending : Location → Ending} {places : List Location} {f g : Process}

theorem EndsOnlyAt.mono {more : List Location} (h : EndsOnlyAt ending places f)
    (subset : places ⊆ more) : EndsOnlyAt ending more f := fun world place ends =>
  ⟨subset (h world place ends).1, (h world place ends).2⟩

theorem endsOnlyAt_ended {plain : Ending} (other : ∀ place, plain ≠ ending place) :
    EndsOnlyAt ending places (ended plain) := fun _ place ends => absurd ends (other place)

theorem EndsOnlyAt.turn (h : EndsOnlyAt ending places f) (event : Event) :
    EndsOnlyAt ending places (turn event f) := by
  intro world place ends
  obtain ⟨inside, last⟩ := h world place ends
  exact ⟨inside, last.append ⟨[⟨event, world⟩], .normal, world⟩⟩

/-- What follows goes on in the same way, or leaves the ending as it is. -/
theorem EndsOnlyAt.bind {next : Ending → Process} (first : EndsOnlyAt ending places f)
    (rest : ∀ e, EndsOnlyAt ending places (next e) ∨ next e = ended e) :
    EndsOnlyAt ending places (f.bind next) := by
  intro world place ends
  unfold Process.bind at ends ⊢
  rcases rest (f world).ending with goes_on | same
  · obtain ⟨inside, last⟩ := goes_on _ place ends
    exact ⟨inside, last.append (f world)⟩
  · have unchanged : (f world).append (ended (f world).ending (f world).world) = f world := by
      simp [ended, Course.append]
    rw [same, unchanged] at ends ⊢
    exact first world place ends

theorem EndsOnlyAt.andThen (first : EndsOnlyAt ending places f)
    (rest : EndsOnlyAt ending places g) :
    EndsOnlyAt ending places (f.andThen g) := by
  refine first.bind fun e => ?_
  cases e with
  | normal => exact .inl rest
  | _ => exact .inr rfl

def stray (place : Location) : Ending := .failed (.strayBreak place)

/-- A `break` under way is in one of the places, and none is found to be stray yet. -/
def BreaksIn (places : List Location) (f : Process) : Prop :=
  EndsOnlyAt .broke places f ∧ EndsOnlyAt stray [] f

theorem endsOnlyAt_attempt {event : Event} {step : World → Except RunFault World}
    (h : ∀ {world fault}, step world = .error fault → fault.IsOfStep) :
    EndsOnlyAt stray places (attempt event step) := by
  intro world place ends
  cases taken : step world with
  | ok next => simp [attempt, taken, stray] at ends
  | error fault =>
    simp only [attempt, taken, World.attempt_error, stray, Ending.failed.injEq] at ends
    exact absurd ends (h taken place)

theorem breaksIn_attempt {event : Event} {step : World → Except RunFault World}
    (h : ∀ {world fault}, step world = .error fault → fault.IsOfStep) :
    BreaksIn places (attempt event step) := by
  refine ⟨fun world place ends => ?_, endsOnlyAt_attempt h⟩
  cases taken : step world <;> simp [attempt, taken] at ends

theorem EndsOnlyAt.branch (yes : EndsOnlyAt ending places f) (no : EndsOnlyAt ending places g)
    (other : ∀ fault, fault.IsOfStep → ∀ place, .failed fault ≠ ending place) (condition : Expr) :
    EndsOnlyAt ending places (branch condition f g) := by
  intro world place ends
  have branch_eq : Process.branch condition f g world =
      chosen f g (world.eval condition) world := rfl
  rw [branch_eq] at ends ⊢
  cases value : world.eval condition with
  | error fault =>
    rw [value] at ends
    exact absurd ends (other fault (World.isOfStep_of_eval value) place)
  | ok v =>
    cases truth : v.isTruthy with
    | true =>
      simp only [value, chosen, truth, if_true] at ends ⊢
      exact yes world place ends
    | false =>
      simp only [value, chosen, truth] at ends ⊢
      exact no world place ends

theorem not_stray {fault : RunFault} (h : fault.IsOfStep) (place : Location) :
    Ending.failed fault ≠ stray place := by
  simpa [stray] using h place

theorem EndsOnlyAt.guard_stray (h : EndsOnlyAt stray places f) (condition : Option Expr) :
    EndsOnlyAt stray places (guard condition f) := by
  cases condition with
  | none => exact h
  | some e => exact h.branch (endsOnlyAt_ended (by simp [stray])) (fun _ => not_stray) e

namespace BreaksIn

theorem andThen (first : BreaksIn places f) (rest : BreaksIn places g) :
    BreaksIn places (f.andThen g) := ⟨first.1.andThen rest.1, first.2.andThen rest.2⟩

theorem mono {more : List Location} (h : BreaksIn places f) (subset : places ⊆ more) :
    BreaksIn more f := ⟨h.1.mono subset, h.2⟩

theorem turn (h : BreaksIn places f) (event : Event) : BreaksIn places (turn event f) :=
  ⟨h.1.turn event, h.2.turn event⟩

theorem branch (yes : BreaksIn places f) (no : BreaksIn places g) (condition : Expr) :
    BreaksIn places (branch condition f g) :=
  ⟨yes.1.branch no.1 (by simp) condition, yes.2.branch no.2 (fun _ => not_stray) condition⟩

end BreaksIn

theorem breaksIn_normal : BreaksIn places (ended .normal) :=
  ⟨endsOnlyAt_ended (by simp), endsOnlyAt_ended (by simp [stray])⟩

theorem endsOnlyAt_given (s : Option Simple) : EndsOnlyAt stray [] (given s) := by
  cases s with
  | none => exact endsOnlyAt_ended (by simp [stray])
  | some s => exact endsOnlyAt_attempt Simple.isOfStep_of_run

/-- A loop takes no `break` of its body for a stray one. -/
theorem endsOnlyAt_loop (header : LoopHeader) {body : Process} (h : EndsOnlyAt stray [] body)
    (n : Nat) : EndsOnlyAt stray [] (loop header body n) := by
  induction n with
  | zero => exact endsOnlyAt_ended (by simp [stray])
  | succ n ih =>
    refine EndsOnlyAt.guard_stray (h.bind fun e => ?_) header.condition
    cases e with
    | normal => exact .inl ((endsOnlyAt_given header.update).andThen ih)
    | broke place => exact .inl (endsOnlyAt_ended (by simp [stray]))
    | failed fault => exact .inr rfl
    | cutOff => exact .inr rfl

end Process

open Process

mutual

/-- A statement ends with a `break` under way only at one that is loose in it. -/
theorem Stmt.breaksIn (fuel : Nat) : (s : Stmt) → BreaksIn s.looseBreaks (s.process fuel)
  | .print args place => breaksIn_attempt World.isOfStep_of_print
  | .simple s => breaksIn_attempt Simple.isOfStep_of_run
  | .ifElse condition thenBranch elseBranch place => by
    have thens := (breaksIn_all fuel thenBranch).mono
      (List.subset_append_left _ (looseBreaksElse elseBranch))
    have elses := (breaksIn_else fuel elseBranch).mono
      (List.subset_append_right (looseBreaksAll thenBranch) _)
    exact (thens.branch elses condition).turn _
  | .forLoop header body place => by
    constructor
    · intro world site ends
      have outcome_eq := Stmt.outcome_process fuel (.forLoop header body place) world
      have ending_eq := congrArg Prod.fst outcome_eq
      exact absurd (ending_eq.symm.trans ends)
        (exec_forLoop_ne_broke fuel header body place site world)
    · have passes := endsOnlyAt_loop header (breaksIn_all fuel body).2 fuel
      exact ((endsOnlyAt_given header.init).andThen passes).turn _
  | .breakLoop place => by
    refine ⟨fun world site ends => ?_, (endsOnlyAt_ended (by simp [stray])).turn _⟩
    obtain rfl : place = site := Ending.broke.inj ends
    exact ⟨List.mem_singleton.mpr rfl, rfl⟩
  | .block body place => (breaksIn_all fuel body).turn _

theorem breaksIn_else (fuel : Nat) :
    (branch : Option (List Stmt)) → BreaksIn (looseBreaksElse branch) (processElse fuel branch)
  | none => breaksIn_normal
  | some branch => breaksIn_all fuel branch

theorem breaksIn_all (fuel : Nat) :
    (body : List Stmt) → BreaksIn (looseBreaksAll body) (processAll fuel body)
  | [] => breaksIn_normal
  | s :: rest => by
    have first := (s.breaksIn fuel).mono (List.subset_append_left _ (looseBreaksAll rest))
    have others := (breaksIn_all fuel rest).mono (List.subset_append_right s.looseBreaks _)
    exact first.andThen others

end

namespace Process

variable {places : List Location} {f : Process}

/-- A `break` that leaves the statements of a rule is stray. -/
theorem BreaksIn.action (h : BreaksIn places f) : EndsOnlyAt stray places f.action := by
  intro world site ends
  by_cases under_way : ∃ place, (f world).ending = .broke place
  · obtain ⟨place, broke⟩ := under_way
    have action_eq : f.action world = { f world with ending := stray place } := by
      unfold Process.action bind
      rw [broke]
      simp [afterAction, ended, Course.append, stray]
    rw [action_eq] at ends ⊢
    obtain rfl : place = site := by simpa [stray] using ends
    exact h.1 world place broke
  · have action_eq : f.action world = f world := by
      unfold Process.action bind
      cases ending_eq : (f world).ending with
      | broke place => exact absurd ⟨place, ending_eq⟩ under_way
      | _ => simp [afterAction, ended, Course.append, ← ending_eq]
    rw [action_eq] at ends
    exact absurd (h.2 world site ends).1 List.not_mem_nil

theorem endsOnlyAt_each {α : Type} {f : α → Process} {ending : Location → Ending}
    (normal : ∀ place, .normal ≠ ending place) (items : List α)
    (h : ∀ x ∈ items, EndsOnlyAt ending places (f x)) :
    EndsOnlyAt ending places (each f items) := by
  induction items with
  | nil => exact endsOnlyAt_ended normal
  | cons x rest ih =>
    have first := h x List.mem_cons_self
    exact first.andThen (ih fun y member => h y (List.mem_cons_of_mem x member))

end Process

namespace Program

variable {program : Program} {fuel : Nat}

theorem looseBreaks_subset {rule : Rule} (member : rule ∈ program) :
    looseBreaksAll rule.body ⊆ program.looseBreaks :=
  fun _ inside => List.mem_flatMap.mpr ⟨rule, member, inside⟩

theorem endsOnlyAt_action {rule : Rule} (member : rule ∈ program) :
    EndsOnlyAt stray program.looseBreaks (processAll fuel rule.body).action :=
  (breaksIn_all fuel rule.body).action.mono (looseBreaks_subset member)

theorem endsOnlyAt_perRecord {rule : Rule} (member : rule ∈ program) :
    EndsOnlyAt stray program.looseBreaks (rule.perRecord fuel) := by
  unfold Rule.perRecord
  cases rule.trigger with
  | eachRecord pattern =>
    have acts : EndsOnlyAt stray program.looseBreaks (processAll fuel rule.body).action :=
      endsOnlyAt_action member
    exact (acts.guard_stray pattern).turn _
  | _ => exact endsOnlyAt_ended (by simp [stray])

/-- A run finds a stray `break` only where one stands in no loop. -/
theorem endsOnlyAt_process (input : String) :
    EndsOnlyAt stray program.looseBreaks (program.process fuel input) := by
  have normal (place : Location) : Ending.normal ≠ stray place := by simp [stray]
  have once (p : Rule → Bool) :
      EndsOnlyAt stray program.looseBreaks (each (Rule.once fuel) (program.filter p)) :=
    endsOnlyAt_each normal _ fun rule member =>
      (endsOnlyAt_action (List.mem_filter.mp member).1).turn _
  have onRecord (line : String) :
      EndsOnlyAt stray program.looseBreaks (program.onRecord fuel line) :=
    (endsOnlyAt_attempt World.isOfStep_of_beginRecord).andThen
      (endsOnlyAt_each normal program fun rule member => endsOnlyAt_perRecord member)
  refine (once _).andThen (EndsOnlyAt.andThen ?_ (once _))
  intro world place ends
  exact endsOnlyAt_each normal _ (fun line _ => onRecord line) world place ends

end Program

/-- A `for` ends normally when its condition fails after some full passes, or when a `break` leaves
its body, which then is in no loop inside; the update is not run any more. -/
theorem exec_forLoop_normal_iff {fuel : Nat} {header : LoopHeader} {body : List Stmt}
    {place : Location} {world final : World} :
    (Stmt.forLoop header body place).exec fuel world = (.normal, final) ↔
      ∃ begun, runOptional header.init world = .ok begun ∧
        ∃ n < fuel, ∃ mid, Passes header (execAll fuel body) n begun mid ∧
          (header.test mid = .ok false ∧ final = mid ∨
            header.test mid = .ok true ∧ ∃ site ∈ looseBreaksAll body,
              execAll fuel body mid = (.broke site, final) ∧
                (processAll fuel body mid).EndsAtBreak site) := by
  rw [Stmt.exec]
  cases init_eq : runOptional header.init world with
  | error fault => simp [World.attempt, Outcome.andThen]
  | ok begun =>
    rw [World.attempt_ok]
    change iterate (loopPass header (execAll fuel body)) fuel begun = (.normal, final) ↔ _
    have stopped_iff (mid : World) : LastPass header (execAll fuel body) mid .normal final ↔
        header.test mid = .ok false ∧ final = mid ∨
          header.test mid = .ok true ∧ ∃ site ∈ looseBreaksAll body,
            execAll fuel body mid = (.broke site, final) ∧
              (processAll fuel body mid).EndsAtBreak site := by
      constructor
      · intro last
        cases last with
        | finished test_eq => exact .inl ⟨test_eq, rfl⟩
        | @broke site left test_eq run_eq =>
          have outcome_eq := outcome_processAll fuel body mid
          have ends := (congrArg Prod.fst outcome_eq).trans (congrArg Prod.fst run_eq)
          have found := (breaksIn_all fuel body).1 mid site ends
          exact .inr ⟨test_eq, site, found.1, run_eq, found.2⟩
      · rintro (⟨test_eq, rfl⟩ | ⟨test_eq, _, -, run_eq, -⟩)
        · exact .finished test_eq
        · exact .broke test_eq run_eq
    rw [iterate_loopPass_iff]
    simp [stopped_iff]

namespace Session

/-- No loop ends with a `break` under way; where its body does, the loop ends normally and without
its update. A run that fails with a stray `break` has turned to one that is in no loop, and stops
there, so a program that has none of these never fails so. -/
theorem breaks_contained (fuel : Nat) :
    (∀ (header : LoopHeader) (body : List Stmt) (place site : Location) (world : World),
      ((Stmt.forLoop header body place).exec fuel world).1 ≠ .broke site) ∧
    (∀ (header : LoopHeader) (body : List Stmt) (place : Location) (world final : World),
      (Stmt.forLoop header body place).exec fuel world = (.normal, final) ↔
        ∃ begun, runOptional header.init world = .ok begun ∧
          ∃ n < fuel, ∃ mid, Passes header (execAll fuel body) n begun mid ∧
            (header.test mid = .ok false ∧ final = mid ∨
              header.test mid = .ok true ∧ ∃ site ∈ looseBreaksAll body,
                execAll fuel body mid = (.broke site, final) ∧
                  (processAll fuel body mid).EndsAtBreak site)) ∧
    (∀ (session : Session) (input : String) (room : Option Nat) (site : Location),
      (session.run fuel input room).ending = .failed (.strayBreak site) →
      site ∈ session.program.looseBreaks ∧ (session.course fuel input room).EndsAtBreak site) ∧
    ∀ (session : Session) (input : String) (room : Option Nat) (site : Location),
      session.program.looseBreaks = [] →
      (session.run fuel input room).ending ≠ .failed (.strayBreak site) := by
  have stray_run (session : Session) (input : String) (room : Option Nat) (site : Location)
      (ends : (session.run fuel input room).ending = .failed (.strayBreak site)) :
      site ∈ session.program.looseBreaks ∧ (session.course fuel input room).EndsAtBreak site := by
    rw [run_eq_course] at ends
    exact Program.endsOnlyAt_process input (session.world room) site ends
  refine ⟨exec_forLoop_ne_broke fuel, fun _ _ _ _ _ => exec_forLoop_normal_iff, stray_run, ?_⟩
  intro session input room site none_loose ends
  have inside := (stray_run session input room site ends).1
  rw [none_loose] at inside
  exact List.not_mem_nil inside

/-- The header `i = 0; ; i++`. -/
def countingUp : LoopHeader :=
  ⟨some (.assign "i" none (.literal (.int 0) .start) .start), none,
    some (.increment "i" .up .after .start)⟩

/-- The statements `for (;;) break; if (i == 1) break`. -/
def leavingTwice : List Stmt :=
  let reached := Expr.binary (.relation .equal) (.var "i" .start) (.literal (.int 1) .start) .start
  [.forLoop ⟨none, none, none⟩ [.breakLoop ⟨1, 30⟩] .start,
    .ifElse reached [.breakLoop ⟨1, 45⟩] none .start]

/-- The program `{ for (i = 0; ; i++) { for (;;) break; if (i == 1) break } print i; … }`, with this
statement in the end, for the second record. -/
def leavingLoops (last : Stmt) : Program :=
  let second := Expr.binary (.relation .equal) (.var "NR" .start) (.literal (.int 2) .start) .start
  [⟨.eachRecord none,
    [.forLoop countingUp leavingTwice .start, .print [.var "i" .start] .start,
      .ifElse second [last] none .start],
    .start⟩]

/-- The outer loop goes on after the inner one is left, and is left itself before `i` is stepped
again; a `break` after both is stray, and in a loop of its own it is not. -/
theorem breaks_contained_nested :
    let session := ofProgram (leavingLoops (.breakLoop ⟨2, 1⟩))
    let begun := session.world none
    (∀ site, ((Stmt.forLoop countingUp leavingTwice .start).exec 2 begun).1 ≠ .broke site) ∧
    (∃ n < 2, ∃ mid final, execAll 2 leavingTwice mid = (.broke ⟨1, 45⟩, final) ∧
      (∃ first, Passes countingUp (execAll 2 leavingTwice) n first mid) ∧
      (Stmt.forLoop countingUp leavingTwice .start).exec 2 begun = (.normal, final)) ∧
    session.program.looseBreaks = [⟨2, 1⟩] ∧
    (session.run 2 "a\nb\nc" none).ending = .failed (.strayBreak ⟨2, 1⟩) ∧
    (session.run 2 "a\nb\nc" none).writes = ["1\n", "1\n"] ∧
    (session.course 2 "a\nb\nc" none).EndsAtBreak ⟨2, 1⟩ ∧
    ∀ input room site,
      ((ofProgram (leavingLoops (.forLoop ⟨none, none, none⟩ [.breakLoop ⟨2, 1⟩] .start))).run 2
        input room).ending ≠ .failed (.strayBreak site) := by
  intro session begun
  obtain ⟨never, normal_iff, stray_run, none_stray⟩ := breaks_contained 2
  have ends : ((Stmt.forLoop countingUp leavingTwice .start).exec 2 begun).1 = .normal := by
    decide +kernel
  have fails : (session.run 2 "a\nb\nc" none).ending = .failed (.strayBreak ⟨2, 1⟩) := by
    decide +kernel
  refine ⟨fun site => never _ _ _ site begun, ?_, by decide +kernel, fails, by decide +kernel,
    (stray_run session _ none _ fails).2, fun input room site => none_stray _ input room site ?_⟩
  · have exec_eq : (Stmt.forLoop countingUp leavingTwice .start).exec 2 begun = (.normal, _) :=
      Prod.ext ends rfl
    obtain ⟨first, -, n, less, mid, passes, finished | broken⟩ :=
      (normal_iff _ _ _ _ _).mp exec_eq
    · exact absurd finished.1 (by simp [countingUp, LoopHeader.test])
    · obtain ⟨-, site, loose, run_eq, -⟩ := broken
      obtain rfl : site = ⟨1, 45⟩ := List.mem_singleton.mp loose
      exact ⟨n, less, mid, _, run_eq, ⟨first, passes⟩, exec_eq⟩
  · decide +kernel

end Session

end FieldScript
