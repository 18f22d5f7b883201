import FieldScript.CommandLine.Run
import FieldScript.Proofs.Session.Counters
import Mathlib.Control.Monad.Basic

/-!
# The checks of the command

Seven checks stand before a run. Each is told here on its own, by what it has against the settings
and the texts read; the command reports the first complaint and prints nothing, or it does what the
calls of a session do and prints what they write.
-/

namespace FieldScript

/-! ## Endings of a run -/

/-- No `break` is under way at the end. -/
def Outcome.IsSettled (outcome : Outcome) : Prop := ∀ place, outcome.1 ≠ .broke place

namespace Outcome.IsSettled

theorem andThen {outcome : Outcome} {next : World → Outcome} (first : outcome.IsSettled)
    (rest : ∀ world, (next world).IsSettled) : (outcome.andThen next).IsSettled := by
  obtain ⟨ending, world⟩ := outcome
  cases ending with
  | normal => exact rest world
  | _ => exact first

theorem runEach {α : Type} {step : α → World → Outcome}
    (each : ∀ x world, (step x world).IsSettled) (items : List α) (world : World) :
    (runEach step items world).IsSettled := by
  induction items generalizing world with
  | nil => intro place; simp [FieldScript.runEach]
  | cons x rest ih => exact (each x world).andThen ih

end Outcome.IsSettled

theorem World.isSettled_attempt (world : World) (result : Except RunFault World) :
    (world.attempt result).IsSettled := by
  intro place
  cases result <;> simp [attempt]

theorem Rule.isSettled_act (fuel : Nat) (rule : Rule) (world : World) :
    (rule.act fuel world).IsSettled := by
  intro place
  rcases body_eq : execAll fuel rule.body world with ⟨ending, after⟩
  cases ending <;> simp [act, body_eq]

theorem Rule.isSettled_onRecord (fuel : Nat) (rule : Rule) (world : World) :
    (rule.onRecord fuel world).IsSettled := by
  intro place
  unfold onRecord
  split
  · exact rule.isSettled_act fuel world place
  · split
    · simp
    · split
      · exact rule.isSettled_act fuel world place
      · simp
  · simp

theorem Program.isSettled_run (fuel : Nat) (program : Program) (input : String) (world : World) :
    (program.run fuel input world).IsSettled := by
  have acts := Outcome.IsSettled.runEach (Rule.isSettled_act fuel)
  have records := Outcome.IsSettled.runEach fun line world =>
    (world.isSettled_attempt (world.beginRecord line)).andThen
      (Outcome.IsSettled.runEach (Rule.isSettled_onRecord fuel) program)
  exact (acts _ world).andThen fun begun => (records _ begun).andThen (acts _)

namespace CommandLine

/-! ## What each check has to say -/

inductive Check where
  | script
  | operandCount
  | notBlank
  | scriptLimit
  | input
  | inputLimit
  | program
  deriving DecidableEq

def Check.all : List Check :=
  [script, operandCount, notBlank, scriptLimit, input, inputLimit, program]

namespace Source

def ofOperand (operand : Option String) : Source :=
  operand.elim standardInput fun path => if path = "-" then standardInput else file path

def path? : Source → Option String
  | file path => some path
  | standardInput => none

end Source

/-- Why a text is longer than a limit in bytes. -/
def overLimit (limit : Option Nat) (fault : Nat → Nat → Failure) (text : String) : Option Failure :=
  limit.bind fun limit =>
    if limit < text.utf8ByteSize then some (fault text.utf8ByteSize limit) else none

def failure? {α : Type} : Except Failure α → Option Failure
  | .error failure => some failure
  | .ok _ => none

theorem failure?_eq_some {α : Type} {step : Except Failure α} {failure : Failure}
    (h : failure? step = some failure) : step = .error failure := by
  cases step with
  | error other => rw [Option.some.inj h]
  | ok a => cases h

theorem exists_of_failure? {α : Type} {step : Except Failure α} (h : failure? step = none) :
    ∃ a, step = .ok a := by
  cases step with
  | error failure => cases h
  | ok a => exact ⟨a, rfl⟩

namespace Settings

variable (settings : Settings) (read : Source → Except ReadFault String)

/-- The text of the program: that of the file for programs, or else the first operand. -/
def script : Except Failure String :=
  match settings.programFile, settings.operands with
  | some path, _ => (read (.file path)).mapError (.programUnread path)
  | none, text :: _ => .ok text
  | none, [] => .error .noProgram

def inputOperands : List String :=
  if settings.programFile.isSome then settings.operands else settings.operands.tail

def source : Source := .ofOperand settings.inputOperands.head?

def input : Except Failure String :=
  (read settings.source).mapError (.inputUnread settings.source.path?)

/-- What a check has to say, whatever the others do. A text that cannot be read is the matter of one
check only. -/
def complaint : Check → Option Failure
  | .script => failure? (settings.script read)
  | .operandCount => settings.inputOperands[1]?.map .extraOperand
  | .notBlank => (settings.script read).toOption.bind fun script =>
      if Text.allBlank script.toList then some .emptyProgram else none
  | .scriptLimit =>
      (settings.script read).toOption.bind (overLimit settings.scriptLimit .longProgram)
  | .input => failure? (settings.input read)
  | .inputLimit =>
      (settings.input read).toOption.bind (overLimit settings.inputLimit .longInput)
  | .program => (settings.script read).toOption.bind fun script =>
      failure? ((Session.ofScript script).mapError .invalidProgram)

def firstComplaint : Option Failure := Check.all.findSome? (settings.complaint read)

def presets : List Call :=
  settings.separator.toList.map .setSeparator ++
    settings.assignments.map fun (name, text) => .setVariable name text

end Settings

/-! ## What the command does -/

def heed {α : Type} (complaint : Option Failure) (rest : Except Failure α) : Except Failure α :=
  complaint.elim rest .error

theorem heed_heed {α : Type} (first second : Option Failure) (rest : Except Failure α) :
    heed first (heed second rest) = heed (first.or second) rest := by
  cases first <;> rfl

theorem heed_bind {α β : Type} (complaint : Option Failure) (rest : Except Failure α)
    (next : α → Except Failure β) :
    (heed complaint rest).bind next = heed complaint (rest.bind next) := by
  cases complaint <;> rfl

theorem bind_eq_heed {α β : Type} (step : Except Failure α) (next : α → Except Failure β) :
    step.bind next = heed (failure? step) (step.bind next) := by
  cases step <;> rfl

theorem inputSource_eq (operands : List String) :
    inputSource operands =
      heed (operands[1]?.map .extraOperand) (.ok (.ofOperand operands.head?)) := by
  match operands with
  | [] => rfl
  | [path] => rfl
  | _ :: extra :: _ => rfl

theorem withinLimit_eq (limit : Option Nat) (text : String) (fault : Nat → Nat → Failure) :
    withinLimit limit text fault = heed (overLimit limit fault text) (.ok ()) := by
  cases limit with
  | none => rfl
  | some limit =>
    unfold withinLimit overLimit
    by_cases exceeds : limit < text.utf8ByteSize <;> simp [exceeds, heed]

theorem run_bind {α β : Type} (x : ExceptT Failure Id α) (f : α → ExceptT Failure Id β) :
    (x >>= f).run = Except.bind x.run fun a => (f a).run := by
  change ExceptT.bindCont f x.run = _
  cases x.run <;> rfl

namespace Settings

variable (settings : Settings) (read : Source → Except ReadFault String)

theorem run_readScript :
    (settings.readScript (m := Id) read).run =
      (settings.script read).map fun text => (text, settings.inputOperands) := by
  unfold readScript script inputOperands
  cases settings.programFile with
  | none => cases settings.operands <;> rfl
  | some path =>
    simp only [run_bind]
    cases read (.file path) <;> rfl

theorem run_readInput : (readInput (m := Id) read settings.source).run = settings.input read := by
  unfold readInput input
  simp only [run_bind]
  cases read settings.source <;> cases settings.source <;> rfl

theorem checkScript_eq (script : String) :
    settings.checkScript script =
      heed (if Text.allBlank script.toList then some .emptyProgram else none)
        (heed (overLimit settings.scriptLimit .longProgram script) (.ok ())) := by
  unfold checkScript
  rw [withinLimit_eq]
  cases Text.allBlank script.toList <;> rfl

theorem run_gather :
    (settings.gather (m := Id) read).run = (settings.script read).bind fun script =>
      (inputSource settings.inputOperands).bind fun source =>
        (settings.checkScript script).bind fun _ =>
          ((readInput (m := Id) read source).run).bind fun input =>
            (settings.checkInput input).bind fun _ => .ok (script, input) := by
  unfold gather
  simp only [run_bind, run_readScript]
  cases settings.script read <;> rfl

/-- The texts and operands are found and checked one after the other. -/
theorem run_gather_of_script {script : String} (script_eq : settings.script read = .ok script) :
    (settings.gather (m := Id) read).run =
      heed (settings.complaint read .operandCount)
        (heed (settings.complaint read .notBlank)
          (heed (settings.complaint read .scriptLimit)
            ((settings.input read).bind fun input =>
              heed (settings.complaint read .inputLimit) (.ok (script, input))))) := by
  rw [run_gather, script_eq]
  change (inputSource settings.inputOperands).bind _ = _
  rw [inputSource_eq, heed_bind]
  change heed _ ((settings.checkScript script).bind fun _ =>
    ((readInput (m := Id) read settings.source).run).bind _) = _
  rw [checkScript_eq, heed_bind, heed_bind, run_readInput]
  simp only [complaint, script_eq, checkInput, withinLimit_eq]
  cases settings.input read with
  | error failure => rfl
  | ok input => simp only [heed_bind]; rfl

theorem firstComplaint_eq :
    settings.firstComplaint read = (settings.complaint read .script).or
      ((settings.complaint read .operandCount).or ((settings.complaint read .notBlank).or
        ((settings.complaint read .scriptLimit).or ((settings.complaint read .input).or
          ((settings.complaint read .inputLimit).or (settings.complaint read .program)))))) := by
  have cons (check : Check) (rest : List Check) :
      (check :: rest).findSome? (settings.complaint read) =
        (settings.complaint read check).or (rest.findSome? (settings.complaint read)) := by
    rw [List.findSome?_cons]
    cases settings.complaint read check <;> rfl
  rw [firstComplaint, Check.all]
  simp only [cons, List.findSome?_nil, Option.or_none]

theorem execute_eq (fuel : Nat) :
    settings.execute (m := Id) fuel read =
      match (settings.gather (m := Id) read).run with
      | .error failure => .failed "" failure
      | .ok (script, input) => settings.runScript fuel script input := rfl

variable {settings read} in
/-- The first complaint is all that is reported. -/
theorem execute_of_complaint {failure : Failure}
    (first : settings.firstComplaint read = some failure) (fuel : Nat) :
    settings.execute (m := Id) fuel read = .failed "" failure := by
  rw [execute_eq]
  rw [firstComplaint_eq] at first
  cases script_eq : settings.script read with
  | error unread =>
    obtain rfl : unread = failure := by simpa [complaint, script_eq, failure?] using first
    rw [run_gather, script_eq]
    rfl
  | ok script =>
    have script_check : settings.complaint read .script = none := by
      simp [complaint, script_eq, failure?]
    have input_check : settings.complaint read .input = failure? (settings.input read) := rfl
    rw [script_check, Option.none_or, input_check, ← Option.or_assoc, ← Option.or_assoc,
      ← Option.or_assoc] at first
    rw [run_gather_of_script settings read script_eq, bind_eq_heed, heed_heed, heed_heed, heed_heed]
    -- The checks up to the reading of the input, and then the two that come after it.
    rcases Option.or_eq_some_iff.mp first with before | ⟨before, after⟩
    · rw [before]
      rfl
    · rw [before]
      obtain ⟨input, input_eq⟩ := exists_of_failure? (Option.or_eq_none_iff.mp before).2
      rw [input_eq]
      rcases Option.or_eq_some_iff.mp after with too_long | ⟨fits, invalid⟩
      · rw [too_long]
        rfl
      · rw [fits]
        have refused : (Session.ofScript script).mapError .invalidProgram = .error failure :=
          failure?_eq_some (by simpa [complaint, script_eq, Except.toOption] using invalid)
        cases session_eq : Session.ofScript script with
        | error fault =>
          obtain rfl : Failure.invalidProgram fault = failure := by
            simpa [session_eq, Except.mapError] using refused
          simp [heed, Except.bind, runScript, session_eq]
        | ok session => simp [session_eq, Except.mapError] at refused

variable {settings read} in
/-- Without a complaint there are a session of the script and an input, and the run decides. -/
theorem execute_of_no_complaint (none : settings.firstComplaint read = none) (fuel : Nat) :
    ∃ script input session, settings.script read = .ok script ∧ settings.input read = .ok input ∧
      Session.ofScript script = .ok session ∧
        settings.execute (m := Id) fuel read = settings.runScript fuel script input := by
  have silent (check : Check) : settings.complaint read check = Option.none :=
    List.findSome?_eq_none_iff.mp none check (by cases check <;> decide)
  obtain ⟨script, script_eq⟩ := exists_of_failure? (silent .script)
  obtain ⟨input, input_eq⟩ := exists_of_failure? (silent .input)
  refine ⟨script, input, ?_⟩
  cases session_eq : Session.ofScript script with
  | error fault =>
    have invalid := silent .program
    simp [complaint, script_eq, session_eq, Except.toOption, Except.mapError, failure?] at invalid
  | ok session =>
    refine ⟨session, script_eq, input_eq, rfl, ?_⟩
    rw [execute_eq, run_gather_of_script settings read script_eq, silent, silent, silent, silent,
      input_eq]
    rfl

theorem callAll_presets (session : Session) :
    session.callAll settings.presets = settings.prepare session := by
  unfold Session.callAll presets prepare
  rw [List.foldl_append, List.foldl_map]
  cases settings.separator <;> rfl

end Settings

/-- What a report has to say of a run: all that was written is printed, whatever the ending, and the
fault is told if there is one. -/
structure Report.Tells (result : Session.Result) (report : Report) : Prop where
  stdout_eq : report.stdout = String.join result.writes
  code_eq : report.code = 0 ∨ report.code = 2
  success : report.code = 0 ↔ result.ending = .normal
  silent : result.ending = .normal → report.stderr = ""
  fault {fault : RunFault} : result.ending = .failed fault →
    report.stderr = "tinyawk: runtime error: " ++ fault.message ++ "\n"

theorem Failure.message_runtime (fault : RunFault) :
    (Failure.runtime fault).message = "tinyawk: runtime error: " ++ fault.message ++ "\n" := by
  have joined : "tinyawk: " ++ "runtime error: " = "tinyawk: runtime error: " := by decide +kernel
  calc (Failure.runtime fault).message
      = "tinyawk: " ++ ("runtime error: " ++ fault.message) ++ "\n" := rfl
    _ = "tinyawk: " ++ "runtime error: " ++ fault.message ++ "\n" :=
        congrArg (· ++ "\n") String.append_assoc.symm
    _ = "tinyawk: runtime error: " ++ fault.message ++ "\n" := by rw [joined]

theorem Settings.tells_runScript (settings : Settings) {script : String} {session : Session}
    (session_eq : Session.ofScript script = .ok session) (fuel : Nat) (input : String) :
    (settings.runScript fuel script input).Tells
      ((session.callAll settings.presets).run fuel input none) := by
  rw [settings.callAll_presets, Settings.runScript, session_eq]
  dsimp only
  generalize (settings.prepare session).run fuel input none = result
  obtain ⟨ending, writes, after⟩ := result
  cases ending with
  | normal => exact ⟨rfl, .inl rfl, by simp, fun _ => rfl, by simp⟩
  | failed fault =>
    refine ⟨rfl, .inr rfl, by simp [Report.failed], by simp, fun same => ?_⟩
    rw [← Ending.failed.inj same]
    exact Failure.message_runtime fault
  | _ => exact ⟨rfl, .inr rfl, by simp [Report.failed], by simp, by simp⟩

/-- What a command with these settings leaves behind: its first complaint and nothing else, or the
run of the session of its script, with the separator and then the variables set by calls, over its
input. -/
inductive Settings.Leaves (settings : Settings) (read : Source → Except ReadFault String)
    (fuel : Nat) (report : Report) : Prop where
  | complaint {failure : Failure} (first : settings.firstComplaint read = some failure)
    (report_eq : report = ⟨2, "", failure.message⟩)
  | ran {script input : String} {session : Session} (none : settings.firstComplaint read = none)
    (script_eq : settings.script read = .ok script) (input_eq : settings.input read = .ok input)
    (session_eq : Session.ofScript script = .ok session)
    (tells : report.Tells ((session.callAll settings.presets).run fuel input Option.none))
    (settled : ∀ place,
      ((session.callAll settings.presets).run fuel input Option.none).ending ≠ .broke place)

theorem Settings.execute_gated (settings : Settings) (read : Source → Except ReadFault String)
    (fuel : Nat) : settings.Leaves read fuel (settings.execute (m := Id) fuel read) := by
  cases first : settings.firstComplaint read with
  | some failure =>
    apply Leaves.complaint first
    exact execute_of_complaint first fuel
  | none =>
    obtain ⟨script, input, session, script_eq, input_eq, session_eq, execute_eq⟩ :=
      execute_of_no_complaint first fuel
    apply Leaves.ran first script_eq input_eq session_eq
    · rw [execute_eq]
      exact settings.tells_runScript session_eq fuel input
    · exact Program.isSettled_run fuel _ input _

/-- Arguments that ask to run something leave behind what their settings do. -/
theorem run_gated {arguments : List String} {settings : Settings}
    (accepted : request arguments = .ok (.run settings))
    (read : Source → Except ReadFault String) (fuel : Nat) :
    settings.Leaves read fuel (run (m := Id) fuel arguments read) := by
  have run_eq : run (m := Id) fuel arguments read = settings.execute (m := Id) fuel read := by
    rw [run, accepted]
  rw [run_eq]
  exact settings.execute_gated read fuel

/-- An operand too many is told of before a blank program and a missing input. A separator that is
set by name overrides the other one; the input is of just the size allowed, and what is printed
before the fault stays. -/
theorem run_gated_dividing :
    let missing : Source → Except ReadFault String := fun _ => .error .notFound
    let present : Source → Except ReadFault String := fun _ => .ok "5,x\n1,y"
    let script := "{ print $n; x = 7 % ($1 - 1) }"
    let arguments := ["-F", ":", "-v", "FS=,", "-vn=2", "--max-input-bytes=7", script, "-"]
    run (m := Id) 9 [" ", "in", "out"] missing = ⟨2, "",
      "tinyawk: unexpected extra operand 'out': only one input file is supported\n"⟩ ∧
    run (m := Id) 9 arguments present = ⟨2, "x\ny\n",
      "tinyawk: runtime error: error applying operator '%': modulo by zero\n"⟩ := by
  intro missing present script arguments
  let crowded : Settings := ⟨none, none, [], none, none, [" ", "in", "out"]⟩
  let dividing : Settings :=
    ⟨none, some ":", [("FS", ","), ("n", "2")], none, some 7, [script, "-"]⟩
  have crowded_accepted : request [" ", "in", "out"] = .ok (.run crowded) := by decide +kernel
  have dividing_accepted : request arguments = .ok (.run dividing) := by decide +kernel
  constructor
  · have first : crowded.firstComplaint missing = some (.extraOperand "out") := by decide +kernel
    cases run_gated crowded_accepted missing 9 with
    | complaint complains report_eq =>
      rw [first] at complains
      rw [report_eq, ← Option.some.inj complains]
      exact congrArg (Report.mk 2 "") (by decide +kernel)
    | ran none =>
      rw [first] at none
      contradiction
  · have first : dividing.firstComplaint present = none := by decide +kernel
    cases run_gated dividing_accepted present 9 with
    | complaint complains =>
      rw [first] at complains
      contradiction
    | @ran script' input session _ script_eq input_eq session_eq tells _ =>
      obtain rfl : script = script' := Except.ok.inj script_eq
      obtain rfl : "5,x\n1,y" = input := Except.ok.inj input_eq
      have ran : (Session.ofScript script).toOption.map (fun session =>
          let result := (session.callAll dividing.presets).run 9 "5,x\n1,y" none
          (result.writes, result.ending)) =
            some (["x\n", "y\n"], .failed (.operator .moduloByZero)) := by
        decide +kernel
      rw [session_eq] at ran
      obtain ⟨writes_eq, ending_eq⟩ := Prod.mk.inj (Option.some.inj ran)
      generalize run (m := Id) 9 arguments present = report at tells ⊢
      obtain ⟨code, stdout, stderr⟩ := report
      have failed : code = 2 := tells.code_eq.resolve_left (by rw [tells.success, ending_eq]; simp)
      have printed : stdout = "x\ny\n" := tells.stdout_eq.trans (by rw [writes_eq]; decide +kernel)
      have told : stderr =
          "tinyawk: runtime error: error applying operator '%': modulo by zero\n" :=
        (tells.fault ending_eq).trans (by decide +kernel)
      rw [failed, printed, told]

end CommandLine

end FieldScript
