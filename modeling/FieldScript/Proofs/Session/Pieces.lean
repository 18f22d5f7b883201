import FieldScript.Proofs.Session.Relevance
import FieldScript.Proofs.Session.SinkRoom
import FieldScript.Proofs.Text.Rejoin

/-!
# Input in pieces

A program that only has rules for records, and leaves `RS` alone, can get its input in pieces cut at
a separator of one character. Each run goes on where the last one ended, so the runs over the pieces
write and leave what the one run over the whole input does.
-/

namespace FieldScript

namespace World

/-- The world in which these texts, the newest first, were written before all others. -/
def withEarlier (earlier : List String) (world : World) : World :=
  { world with sink := ⟨world.sink.newest ++ earlier, world.sink.room⟩ }

theorem evalAll_withEarlier (earlier : List String) (world : World) (args : List Expr) :
    (world.withEarlier earlier).evalAll args = world.evalAll args := by
  induction args with
  | nil => rfl
  | cons e rest ih =>
    rw [evalAll, evalAll, ih]
    rfl

theorem print_withEarlier (earlier : List String) (world : World) (args : List Expr) :
    (world.withEarlier earlier).print args = (world.print args).map (withEarlier earlier) := by
  have values_eq := world.evalAll_withEarlier earlier args
  cases values : world.evalAll args with
  | error fault =>
    rw [print_of_evalAll_error values, print_of_evalAll_error (values_eq.trans values)]
    rfl
  | ok texts =>
    have printed_eq : (world.withEarlier earlier).printed texts = world.printed texts := rfl
    rw [print_of_evalAll values, print_of_evalAll (values_eq.trans values), printed_eq, Sink.write,
      Sink.write]
    simp only [withEarlier]
    split <;> rfl

end World

theorem SinkBlind.withEarlier {step : World → Except RunFault World} (blind : SinkBlind step)
    (earlier : List String) (world : World) :
    step (world.withEarlier earlier) = (step world).map (World.withEarlier earlier) := by
  have taken_eq : step (world.withEarlier earlier) =
      (step world).map fun next => { next with sink := (world.withEarlier earlier).sink } :=
    blind world (world.withEarlier earlier).sink
  rw [taken_eq]
  cases taken : step world with
  | error fault => rfl
  | ok next =>
    simp only [Except.map, World.withEarlier, blind.sink_eq taken]

namespace Process

/-- What was written earlier has no effect, and stays. -/
def KeepsEarlier (earlier : List String) (f : Process) : Prop :=
  ∀ world, (f (world.withEarlier earlier)).outcome =
    ((f world).ending, (f world).world.withEarlier earlier)

theorem keepsEarlier_attempt {earlier : List String} {event : Event}
    {step : World → Except RunFault World}
    (h : ∀ world, step (world.withEarlier earlier) = (step world).map (World.withEarlier earlier)) :
    KeepsEarlier earlier (attempt event step) := by
  intro world
  simp only [attempt, Course.outcome, h]
  cases step world <;> rfl

theorem keepsEarlier_congruence (earlier : List String) :
    RunCongruence (fun _ => True) fun f _ => KeepsEarlier earlier f where
  ended _ _ := rfl
  cutOff _ _ := rfl
  turn _ kept world := kept world
  print args _ _ := keepsEarlier_attempt fun world => world.print_withEarlier earlier args
  change s _ := keepsEarlier_attempt (s.sinkBlind.withEarlier earlier)
  record line := keepsEarlier_attempt ((World.sinkBlind_beginRecord line).withEarlier earlier)
  bind {f _ next _} _ _ first rest world := by
    change (next (f (world.withEarlier earlier)).outcome.1
      (f (world.withEarlier earlier)).outcome.2).outcome = _
    rw [first]
    exact rest _ _
  test e _ _ _ related world := related (world.eval e) world
  separator related world := related world.store.rs.display world

end Process

/-- A sink has as much room left as it had for texts that are not written yet. -/
theorem room_invariant (room : Option Nat) :
    Invariant (fun _ => True)
      (fun (_ : Unit) world => world.sink.room = room.map (· - world.sink.newest.length))
      fun _ _ => () where
  plain _ _ _ holds := holds
  print {args} place _ _ world holds := by
    cases values_eq : world.evalAll args with
    | error fault =>
      rw [World.print_of_evalAll_error values_eq]
      exact holds
    | ok values =>
      rw [World.print_of_evalAll values_eq]
      cases room_eq : world.sink.room with
      | none =>
        obtain rfl := Option.map_eq_none_iff.mp (holds.symm.trans room_eq)
        simp [Sink.write, room_eq, Except.map]
      | some left =>
        obtain ⟨all, rfl, left_eq⟩ := Option.map_eq_some_iff.mp (holds.symm.trans room_eq)
        cases left with
        | zero => simpa [Sink.write, room_eq, Except.map] using left_eq.symm
        | succ left =>
          simp [Sink.write, room_eq, Except.map]
          omega
  change {s} _ _ world holds := by
    rcases s.run_cases world with ⟨fault, -, fails⟩ | ⟨v, -, taken⟩
    · rw [fails]
      exact holds
    · rw [taken]
      exact holds
  record line _ world holds := by
    rcases world.beginRecord_cases line with ⟨fault, -, fails⟩ | ⟨nr, -, begun⟩
    · rw [fails]
      exact holds
    · rw [begun]
      exact holds

namespace Program

variable {program : Program} {fuel : Nat} {world : World}

theorem run_withEarlier (earlier : List String) (input : String) :
    program.run fuel input (world.withEarlier earlier) =
      ((program.run fuel input world).1, (program.run fuel input world).2.withEarlier earlier) := by
  rw [← outcome_process, ← outcome_process]
  exact (Process.keepsEarlier_congruence earlier).program (Nat.le_refl fuel) program
    (fun _ _ => trivial) input world

theorem room_run {room : Option Nat} (start : world.sink = .ofRoom room) (input : String) :
    (program.run fuel input world).2.sink.room =
      room.map (· - (program.run fuel input world).2.sink.newest.length) := by
  have room_eq : world.sink.room = room.map (· - world.sink.newest.length) := by
    rw [start]
    cases room <;> rfl
  rw [← outcome_process]
  exact ((room_invariant room).program program (fun _ _ => trivial) fuel input (a := ())
    room_eq).2

theorem run_of_records (records : ∀ rule ∈ program, ∃ pattern, rule.trigger = .eachRecord pattern)
    (input : String) :
    program.run fuel input world =
      runEach (program.runRecord fuel) (Record.split world.store.rs.display input) world := by
  have none_at_start : program.filter Rule.isAtStart = [] := by
    rw [List.filter_eq_nil_iff]
    intro rule member
    obtain ⟨pattern, trigger_eq⟩ := records rule member
    simp [Rule.isAtStart, trigger_eq]
  have none_at_end : program.filter Rule.isAtEnd = [] := by
    rw [List.filter_eq_nil_iff]
    intro rule member
    obtain ⟨pattern, trigger_eq⟩ := records rule member
    simp [Rule.isAtEnd, trigger_eq]
  rw [run, none_at_start, none_at_end]
  simp only [runEach, Outcome.andThen]
  split <;> simp_all

/-- A run over two inputs with the separator between them is a run over the first, and, if that ends
normally, a run over the second from there. -/
theorem run_append_char
    (records : ∀ rule ∈ program, ∃ pattern, rule.trigger = .eachRecord pattern)
    (free : Builtin.rs.name ∉ program.targets) {c : Char}
    (separator : world.store.rs.display = String.singleton c) (a b : String) :
    program.run fuel (a ++ String.singleton c ++ b) world =
      (program.run fuel a world).andThen (program.run fuel b) := by
  have rs_kept : (program.run fuel a world).2.store.rs = world.store.rs := by
    have kept := program.get_unchanged (by decide) (by decide) free fuel a world
    rwa [Store.get_name, Store.get_name] at kept
  have second : ∀ next : World, next.store.rs = world.store.rs →
      runEach (program.runRecord fuel) (Record.split (String.singleton c) b) next =
        program.run fuel b next := by
    intro next rs_eq
    rw [run_of_records records, rs_eq, separator]
  rw [run_of_records records, separator, Record.split_append_char, runEach_append, ← separator,
    ← run_of_records records a, separator]
  unfold Outcome.andThen
  split
  · next next first_eq =>
    apply second
    rw [← rs_kept, first_eq]
  · rfl

end Program

namespace Session

/-- The world in which a run ends is the one in which the next run begins, with the sink that goes
on, behind what is written already. -/
theorem world_withEarlier (session : Session) (input : String) (room : Option Nat) (fuel : Nat) :
    let first := session.run fuel input room
    let final := (session.program.run fuel input (session.world room)).2
    final = (first.session.world (room.map (· - first.writes.length))).withEarlier
      final.sink.newest := by
  intro first final
  have room_eq : final.sink.room = room.map (· - final.sink.newest.length) :=
    Program.room_run rfl input
  have length_eq : first.writes.length = final.sink.newest.length := List.length_reverse
  rw [length_eq, ← room_eq]
  rfl

/-- Runs over two pieces of an input, cut at the separator, together are the run over the input, if
the first one ends normally: the second one goes on with the session that the first one left, and
with the room that it left in the sink. A run that fails on the first piece fails in the same way
whatever follows. -/
theorem run_in_pieces (session : Session)
    (records : ∀ rule ∈ session.program, ∃ pattern, rule.trigger = .eachRecord pattern)
    (free : "RS" ∉ session.program.targets) (c : Char)
    (separator : session.store.rs.display = String.singleton c) (room : Option Nat)
    (a b : String) (fuel : Nat) :
    let first := session.run fuel a room
    let left := room.map (· - first.writes.length)
    (first.ending = .normal → ∀ more, fuel ≤ more →
      let second := first.session.run more b left
      session.run more (a ++ String.singleton c ++ b) room =
        ⟨second.ending, first.writes ++ second.writes, second.session⟩) ∧
    ∀ fault, first.ending = .failed fault → ∀ more, fuel ≤ more →
      session.run more (a ++ String.singleton c ++ b) room = first := by
  intro first left
  let final := (session.program.run fuel a (session.world room)).2
  have final_eq : final = (first.session.world left).withEarlier final.sink.newest :=
    session.world_withEarlier a room fuel
  have whole_eq (more : Nat) (le : fuel ≤ more) (ends : first.ending ≠ .cutOff) :
      session.run more (a ++ String.singleton c ++ b) room =
        session.resultOf (Outcome.andThen (first.ending, final) (session.program.run more b)) := by
    have same : session.program.run more a (session.world room) = (first.ending, final) :=
      Program.run_of_le le ends
    rw [run_eq, Program.run_append_char records free separator, same]
  constructor
  · intro normal more le second
    rw [whole_eq more le (by simp [normal]), normal]
    change session.resultOf (session.program.run more b final) = _
    rw [final_eq, Program.run_withEarlier]
    simp only [resultOf, World.withEarlier, Sink.written, List.reverse_append]
    rfl
  · intro fault fails more le
    rw [whole_eq more le (by simp [fails]), fails]
    change session.resultOf (.failed fault, final) = first
    rw [← fails]
    rfl

/-- The program `$1 != \"x\" { n = n + $1; print NR, n }`. -/
def tallying : Program :=
  let first := Expr.field (.literal (.int 1) .start) .start
  [⟨.eachRecord (some (.binary (.relation .notEqual) first (.literal (.text "x") .start) .start)),
    [.simple (.assign "n" none
        (.binary (.arith .add) (.var "n" .start) first .start) .start),
      .print [.var "NR" .start, .var "n" .start] .start],
    .start⟩]

/-- Two pieces with blank records where they meet, in a sink with room for three writes, and a first
piece that fails. -/
theorem tallying_in_pieces :
    let session := (ofProgram tallying).setVariable "RS" ";"
    let first := session.run 0 ";1;x; ;" (some 3)
    let second := first.session.run 0 ";2;5;6" (some 2)
    first.ending = .normal ∧ first.writes = ["1 1\n"] ∧
    second.ending = .failed .sinkClosed ∧ second.writes = ["3 3\n", "4 8\n"] ∧
    session.run 0 ";1;x; ;;;2;5;6" (some 3) =
      ⟨second.ending, ["1 1\n", "3 3\n", "4 8\n"], second.session⟩ ∧
    (session.run 0 "1;a" none).ending = .failed (.operator (.nonNumeric "+" "a")) ∧
    session.run 0 "1;a;2;3" none = session.run 0 "1;a" none := by
  intro session first second
  have records : ∀ rule ∈ session.program, ∃ pattern, rule.trigger = .eachRecord pattern := by
    intro rule member
    rw [List.mem_singleton.mp member]
    exact ⟨_, rfl⟩
  have free : "RS" ∉ session.program.targets := by decide +kernel
  have separator : session.store.rs.display = String.singleton ';' := by decide +kernel
  have in_pieces := run_in_pieces session records free ';' separator
  have ends : first.ending = .normal := by decide +kernel
  have writes_eq : first.writes = ["1 1\n"] := by decide +kernel
  have fails : (session.run 0 "1;a" none).ending = .failed (.operator (.nonNumeric "+" "a")) := by
    decide +kernel
  have second_eq : second.writes = ["3 3\n", "4 8\n"] := by decide +kernel
  have left_eq : (some 3).map (· - first.writes.length) = some 2 := by
    rw [writes_eq]
    rfl
  have whole := (in_pieces (some 3) ";1;x; ;" ";2;5;6" 0).1 ends 0 (Nat.le_refl 0)
  rw [left_eq] at whole
  have joined : ";1;x; ;" ++ String.singleton ';' ++ ";2;5;6" = ";1;x; ;;;2;5;6" := by
    decide +kernel
  have joined_failing : "1;a" ++ String.singleton ';' ++ "2;3" = "1;a;2;3" := by decide +kernel
  refine ⟨ends, writes_eq, by decide +kernel, second_eq, ?_, fails, ?_⟩
  · rw [← joined, whole]
    change Result.mk second.ending (first.writes ++ second.writes) second.session = _
    rw [writes_eq, second_eq]
    rfl
  · rw [← joined_failing]
    exact (in_pieces none "1;a" "2;3" 0).2 _ fails 0 (Nat.le_refl 0)

end Session

end FieldScript
