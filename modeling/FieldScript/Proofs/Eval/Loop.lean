import FieldScript.Eval.Stmt

/-!
# How a loop ends

A loop makes full passes, each with a condition that holds, a body that ends normally and an update,
and then stops for one reason. A `break` in the body stops it before the update, and the loop itself
ends normally.
-/

namespace FieldScript

/-- Whether a loop goes on to another pass; an absent condition holds. -/
def LoopHeader.test (header : LoopHeader) (world : World) : Except RunFault Bool :=
  header.condition.elim (.ok true) fun e => (world.eval e).map Value.isTruthy

inductive Passes (header : LoopHeader) (run : World → Outcome) : Nat → World → World → Prop where
  | none {world : World} : Passes header run 0 world world
  | more {n : Nat} {world left updated final : World} : header.test world = .ok true →
    run world = (.normal, left) → runOptional header.update left = .ok updated →
    Passes header run n updated final → Passes header run (n + 1) world final

/-- What can happen in a pass that is the last one. -/
inductive LastPass (header : LoopHeader) (run : World → Outcome) (world : World) :
    Ending → World → Prop where
  | unchecked {fault : RunFault} : header.test world = .error fault →
    LastPass header run world (.failed fault) world
  | finished : header.test world = .ok false → LastPass header run world .normal world
  | broke {place : Location} {left : World} : header.test world = .ok true →
    run world = (.broke place, left) → LastPass header run world .normal left
  | failed {fault : RunFault} {left : World} : header.test world = .ok true →
    run world = (.failed fault, left) → LastPass header run world (.failed fault) left
  | cutOff {left : World} : header.test world = .ok true → run world = (.cutOff, left) →
    LastPass header run world .cutOff left
  | stuck {fault : RunFault} {left : World} : header.test world = .ok true →
    run world = (.normal, left) → runOptional header.update left = .error fault →
    LastPass header run world (.failed fault) left

variable {header : LoopHeader} {run : World → Outcome}

theorem loopPass_eq (header : LoopHeader) (run : World → Outcome) (world : World) :
    loopPass header run world =
      match header.test world with
      | .error fault => (some (.failed fault), world)
      | .ok false => (some .normal, world)
      | .ok true =>
        match run world with
        | (.normal, left) =>
          match runOptional header.update left with
          | .ok updated => (none, updated)
          | .error fault => (some (.failed fault), left)
        | (.broke _, left) => (some .normal, left)
        | (ending, left) => (some ending, left) := rfl

theorem loopPass_eq_some_iff {world final : World} {ending : Ending} :
    loopPass header run world = (some ending, final) ↔ LastPass header run world ending final := by
  rw [loopPass_eq]
  constructor
  · intro h
    split at h
    · next fault test_eq =>
      cases h
      exact .unchecked test_eq
    · next test_eq =>
      cases h
      exact .finished test_eq
    · next test_eq =>
      split at h
      · next left run_eq =>
        split at h
        · cases h
        · next fault update_eq =>
          cases h
          exact .stuck test_eq run_eq update_eq
      · next run_eq =>
        cases h
        exact .broke test_eq run_eq
      · next stopped left not_normal not_broke run_eq =>
        cases h
        cases ending with
        | normal => exact (not_normal rfl).elim
        | broke place => exact (not_broke _ rfl).elim
        | failed fault => exact .failed test_eq run_eq
        | cutOff => exact .cutOff test_eq run_eq
  · intro h
    cases h with
    | unchecked test_eq => simp [test_eq]
    | finished test_eq => simp [test_eq]
    | broke test_eq run_eq => simp [test_eq, run_eq]
    | failed test_eq run_eq => simp [test_eq, run_eq]
    | cutOff test_eq run_eq => simp [test_eq, run_eq]
    | stuck test_eq run_eq update_eq => simp [test_eq, run_eq, update_eq]

theorem loopPass_eq_none_iff {world updated : World} :
    loopPass header run world = (none, updated) ↔
      header.test world = .ok true ∧ ∃ left, run world = (.normal, left) ∧
        runOptional header.update left = .ok updated := by
  rw [loopPass_eq]
  constructor
  · intro h
    split at h
    · cases h
    · cases h
    · next test_eq =>
      split at h
      · next left run_eq =>
        split at h
        · next update_eq =>
          cases h
          exact ⟨test_eq, left, run_eq, update_eq⟩
        · cases h
      · cases h
      · cases h
  · rintro ⟨test_eq, left, run_eq, update_eq⟩
    simp [test_eq, run_eq, update_eq]

/-- A loop ends as its last pass does, or is cut off after as many passes as it may make. -/
theorem iterate_loopPass_iff {fuel : Nat} {world final : World} {ending : Ending} :
    iterate (loopPass header run) fuel world = (ending, final) ↔
      (Passes header run fuel world final ∧ ending = .cutOff) ∨
      ∃ n < fuel, ∃ mid, Passes header run n world mid ∧ LastPass header run mid ending final := by
  induction fuel generalizing world with
  | zero =>
    rw [iterate]
    constructor
    · intro h
      cases h
      exact .inl ⟨.none, rfl⟩
    · rintro (⟨passes, rfl⟩ | ⟨n, less, -⟩)
      · cases passes
        rfl
      · omega
  | succ fuel ih =>
    rw [iterate]
    constructor
    · intro h
      split at h
      · next updated pass_eq =>
        obtain ⟨test_eq, left, run_eq, update_eq⟩ := loopPass_eq_none_iff.mp pass_eq
        rcases ih.mp h with ⟨passes, cut⟩ | ⟨n, less, mid, passes, last⟩
        · exact .inl ⟨.more test_eq run_eq update_eq passes, cut⟩
        · exact .inr ⟨n + 1, by omega, mid, .more test_eq run_eq update_eq passes, last⟩
      · next pass_eq =>
        cases h
        exact .inr ⟨0, by omega, world, .none, loopPass_eq_some_iff.mp pass_eq⟩
    · rintro (⟨passes, cut⟩ | ⟨n, less, mid, passes, last⟩)
      · cases passes with
        | more test_eq run_eq update_eq passes =>
          rw [loopPass_eq_none_iff.mpr ⟨test_eq, _, run_eq, update_eq⟩]
          exact ih.mpr (.inl ⟨passes, cut⟩)
      · cases passes with
        | none => rw [loopPass_eq_some_iff.mpr last]
        | more test_eq run_eq update_eq passes =>
          rw [loopPass_eq_none_iff.mpr ⟨test_eq, _, run_eq, update_eq⟩]
          exact ih.mpr (.inr ⟨_, by omega, mid, passes, last⟩)

theorem LastPass.ne_broke {world final : World} {ending : Ending} (place : Location)
    (h : LastPass header run world ending final) : ending ≠ .broke place := by
  cases h <;> simp

end FieldScript
