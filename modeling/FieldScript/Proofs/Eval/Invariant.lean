import FieldScript.Proofs.Eval.Congruence

/-!
# Invariants along a run

An invariant relates the world to an account that is kept of the moments passed so far. When every
action keeps it, it holds at all moments of a run and when the run ends, however it ends.
-/

namespace FieldScript

variable {α : Type} {allowed : Action → Prop} {I : α → World → Prop} {advance : α → Moment → α}

/-- The invariant holds at each of the moments, of the account up to there. -/
def Along (I : α → World → Prop) (advance : α → Moment → α) : α → List Moment → Prop
  | _, [] => True
  | a, moment :: rest => I a moment.world ∧ Along I advance (advance a moment) rest

theorem along_append {a : α} {first rest : List Moment} :
    Along I advance a (first ++ rest) ↔
      Along I advance a first ∧ Along I advance (first.foldl advance a) rest := by
  induction first generalizing a with
  | nil => simp [Along]
  | cons moment first ih => simp [Along, ih, and_assoc]

theorem Along.at_moment {a : α} {moments before after : List Moment} {moment : Moment}
    (h : Along I advance a moments) (split : moments = before ++ moment :: after) :
    I (before.foldl advance a) moment.world := by
  rw [split] at h
  exact (along_append.mp h).2.1

/-- What every event does to the invariant. -/
structure Invariant (allowed : Action → Prop) (I : α → World → Prop)
    (advance : α → Moment → α) : Prop where
  plain {event : Event} (plain : event.isPlain = true) {a : α} {world : World} (h : I a world) :
    I (advance a ⟨event, world⟩) world
  print {args : List Expr} (place : Location) (ok : allowed (.print args)) {a : α} {world : World}
    (h : I a world) :
    I (advance a ⟨.statement (.print args place), world⟩) (world.attempt (world.print args)).2
  change {s : Simple} (ok : allowed (.change s)) {a : α} {world : World} (h : I a world) :
    I (advance a ⟨.statement (.simple s), world⟩) (world.attempt (s.run world)).2
  record (line : String) {a : α} {world : World} (h : I a world) :
    I (advance a ⟨.record line, world⟩) (world.attempt (world.beginRecord line)).2

namespace Process

/-- The invariant holds at the moments of a process and at its end, if it holds at its start. -/
def Keeps (I : α → World → Prop) (advance : α → Moment → α) (f : Process) : Prop :=
  ∀ a world, I a world →
    Along I advance a (f world).moments ∧ I ((f world).moments.foldl advance a) (f world).world

theorem keeps_attempt {event : Event} {step : World → Except RunFault World}
    (h : ∀ {a world}, I a world → I (advance a ⟨event, world⟩) (world.attempt (step world)).2) :
    Keeps I advance (attempt event step) :=
  fun _ _ holds => ⟨⟨holds, trivial⟩, h holds⟩

theorem Keeps.bind {f : Process} {next : Ending → Process} (first : Keeps I advance f)
    (rest : ∀ ending, Keeps I advance (next ending)) : Keeps I advance (f.bind next) := by
  intro a world holds
  obtain ⟨along_first, middle⟩ := first a world holds
  obtain ⟨along_rest, final⟩ := rest (f world).ending _ _ middle
  refine ⟨along_append.mpr ⟨along_first, along_rest⟩, ?_⟩
  change I ((_ ++ _ : List Moment).foldl advance a) _
  rw [List.foldl_append]
  exact final

end Process

open Process in
theorem Invariant.congruence (h : Invariant allowed I advance) :
    RunCongruence allowed fun f _ => Keeps I advance f where
  ended _ := fun _ _ holds => ⟨trivial, holds⟩
  cutOff _ := fun _ _ holds => ⟨trivial, holds⟩
  turn plain kept := by
    intro a world holds
    have turned := kept _ world (h.plain plain holds)
    exact ⟨⟨holds, turned.1⟩, turned.2⟩
  print _ place ok := keeps_attempt (h.print place ok)
  change _ ok := keeps_attempt (h.change ok)
  record line := keeps_attempt (h.record line)
  bind _ _ first rest := first.bind rest
  test _ _ _ _ kept := fun a world => kept _ a world
  separator kept := fun a world => kept _ a world

/-- An invariant holds at every moment of a run, and at its end. -/
theorem Invariant.program (h : Invariant allowed I advance) (program : Program)
    (ok : ∀ a ∈ program.actions, allowed a) (fuel : Nat) (input : String) {a : α} {world : World}
    (holds : I a world) :
    Along I advance a (program.process fuel input world).moments ∧
      I ((program.process fuel input world).moments.foldl advance a)
        (program.process fuel input world).world :=
  h.congruence.program (Nat.le_refl fuel) program ok input a world holds

end FieldScript
