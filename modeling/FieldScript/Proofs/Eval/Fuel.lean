import FieldScript.Proofs.Eval.Congruence

/-!
# More fuel

Fuel only bounds how long a run is looked at. With more of it a run that was cut off goes on from
there, and any other run stays as it is.
-/

namespace FieldScript

/-- The second course is the first one, or goes on where the first one was cut off. -/
def Course.ContinuedBy (c d : Course) : Prop :=
  c = d ∨ (c.ending = .cutOff ∧ c.moments <+: d.moments)

namespace Process

theorem continued_bind {f g : Process} {next next' : Ending → Process} (sequel : IsSequel next)
    (first : ∀ world, (f world).ContinuedBy (g world))
    (rest : ∀ ending world, (next ending world).ContinuedBy (next' ending world)) (world : World) :
    (f.bind next world).ContinuedBy (g.bind next' world) := by
  unfold bind
  rcases first world with same | ⟨cut, earlier⟩
  · rw [← same]
    rcases rest (f world).ending (f world).world with rest_same | ⟨rest_cut, rest_earlier⟩
    · rw [rest_same]
      exact .inl rfl
    · exact .inr ⟨rest_cut, (List.prefix_append_right_inj _).mpr rest_earlier⟩
  · rw [cut, sequel.2]
    refine .inr ⟨rfl, ?_⟩
    change (f world).moments ++ [] <+: _
    rw [List.append_nil]
    exact earlier.trans (List.prefix_append _ _)

theorem continued_congruence :
    RunCongruence (fun _ => True) fun f g => ∀ world, (f world).ContinuedBy (g world) where
  ended _ _ := .inl rfl
  cutOff _ _ := .inr ⟨rfl, List.nil_prefix⟩
  turn _ related world := by
    unfold turn
    rcases related world with same | ⟨cut, earlier⟩
    · rw [same]
      exact .inl rfl
    · exact .inr ⟨cut, (List.prefix_cons_inj _).mpr earlier⟩
  print _ _ _ _ := .inl rfl
  change _ _ _ := .inl rfl
  record _ _ := .inl rfl
  bind sequel _ first rest := continued_bind sequel first rest
  test _ _ _ _ related world := related _ world
  separator related world := related _ world

end Process

theorem Program.process_continued {fuel more : Nat} (le : fuel ≤ more) (program : Program)
    (input : String) (world : World) :
    (program.process fuel input world).ContinuedBy (program.process more input world) :=
  Process.continued_congruence.program le program (fun _ _ => trivial) input world

/-- A run that is not cut off does not depend on how much fuel there is. -/
theorem Program.run_of_le {fuel more : Nat} (le : fuel ≤ more) {program : Program} {input : String}
    {world : World} (ends : (program.run fuel input world).1 ≠ .cutOff) :
    program.run more input world = program.run fuel input world := by
  rw [← outcome_process] at ends
  rcases program.process_continued le input world with same | ⟨cut, -⟩
  · rw [← outcome_process, ← outcome_process, same]
  · exact absurd cut ends

theorem Session.run_of_le {fuel more : Nat} (le : fuel ≤ more) {session : Session} {input : String}
    {room : Option Nat} (ends : (session.run fuel input room).ending ≠ .cutOff) :
    session.run more input room = session.run fuel input room := by
  unfold Session.run at ends ⊢
  rw [Program.run_of_le le ends]

end FieldScript
