import FieldScript.Proofs.Session.Breaks
import FieldScript.Proofs.Session.Relevance
import FieldScript.Proofs.Value.Exactness

/-!
# Counting loops

The loop `for (i = e; i <= n; i++)` makes one pass for each integer from the value of `e` up to that
of `n`, when its body assigns neither of the two names and no `break` leaves it. What carries the
induction is what `i` and `n` hold when a pass begins. The integer above `n` has to be one of 64
bits too, since `i` goes one further than the last pass.
-/

namespace FieldScript

/-- The header `i = e; i <= n; i++`, with the sign on either side of the name. -/
inductive LoopHeader.Counts (i n : String) (e : Expr) : LoopHeader → Prop where
  | upTo (assigned left right compared stepped : Location) (side : Side) :
    Counts i n e
      ⟨some (.assign i none e assigned),
        some (.binary (.relation .lessEqual) (.var i left) (.var n right) compared),
        some (.increment i .up side stepped)⟩

def countFrom : Int → Nat → List Int
  | _, 0 => []
  | a, count + 1 => a :: countFrom (a + 1) count

def countUp (a m : Int) : List Int := countFrom a (m + 1 - a).toNat

def World.set (world : World) (name : String) (value : Value) : World :=
  { world with store := world.store.set name value }

theorem World.get_set (world : World) (name other : String) (value : Value) :
    (world.set name value).store.get other =
      if name = other then value else world.store.get other :=
  world.store.get_set name other value

/-- The pass for an index: the body, and then the index is set one higher. -/
def countingPass (run : World → Outcome) (i : String) (k : Int) (world : World) : Outcome :=
  (run world).andThen fun left => (.normal, left.set i (.int (Int64.ofInt (k + 1))))

theorem countingPass_normal {run : World → Outcome} {world : World}
    (normal : (run world).1 = .normal) (i : String) (k : Int) :
    (countingPass run i k world).1 = .normal := by
  rcases run_eq : run world with ⟨ending, left⟩
  rw [run_eq] at normal
  rw [countingPass, run_eq, show ending = .normal from normal]
  rfl

/-- What a counting loop relies on when a pass begins. -/
structure Counting (i n : String) (m : Int64) (k : Int) (world : World) : Prop where
  index : ∃ held : Int64, world.store.get i = .int held ∧ held.toInt = k
  limit : world.store.get n = .int m

/-- What the body of a counting loop leaves alone. -/
structure CountingBody (i n : String) (run : World → Outcome) : Prop where
  index (world : World) : (run world).2.store.get i = world.store.get i
  limit (world : World) : (run world).2.store.get n = world.store.get n
  unbroken (world : World) (place : Location) : (run world).1 ≠ .broke place

section Header

variable {i n : String} {e : Expr} {header : LoopHeader} {m : Int64} {k : Int} {world : World}

theorem Value.relate_lessEqual (k m : Int64) :
    (relate .lessEqual (.int k) (.int m)).isTruthy = decide (k.toInt ≤ m.toInt) := by
  have compare_eq : (Ord.compare k.toInt m.toInt).isLE = decide (k.toInt ≤ m.toInt) := by
    rw [Bool.eq_iff_iff, decide_eq_true_iff, Int.isLE_compare]
  change (ofBool (Ord.compare k.toInt m.toInt).isLE).isTruthy = _
  rw [compare_eq]
  cases decide (k.toInt ≤ m.toInt) <;> rfl

theorem LoopHeader.Counts.test_eq (counts : header.Counts i n e) (here : Counting i n m k world) :
    header.test world = .ok (decide (k ≤ m.toInt)) := by
  obtain ⟨assigned, left, right, compared, stepped, side⟩ := counts
  obtain ⟨⟨held, index, rfl⟩, limit⟩ := here
  rw [← Value.relate_lessEqual]
  change ((Except.ok (Value.relate .lessEqual (world.store.get i) (world.store.get n))).map _) = _
  rw [index, limit]
  rfl

theorem LoopHeader.Counts.update_eq (counts : header.Counts i n e)
    (here : Counting i n m k world) (range : Number.InRange (k + 1)) :
    runOptional header.update world = .ok (world.set i (.int (Int64.ofInt (k + 1)))) := by
  obtain ⟨assigned, left, right, compared, stepped, side⟩ := counts
  obtain ⟨⟨held, index, rfl⟩, -⟩ := here
  have fit_eq : Arith.add.onIntegers held.toInt (1 : Int64).toInt =
      some (Int64.ofInt (held.toInt + 1)) := if_pos range
  have stepped_value : Value.arithmetic .add (.int held) Step.up.amount =
      .ok (.int (Int64.ofInt (held.toInt + 1))) :=
    Value.arithmetic_of_integer rfl rfl (by simp [Arith.Divides]) fit_eq
  have new_value : Simple.newValue world (.increment i .up side stepped) =
      .ok (.int (Int64.ofInt (held.toInt + 1))) := by
    rw [Simple.newValue_increment, index, stepped_value]
    rfl
  rw [runOptional, Simple.run, new_value]
  rfl

theorem Counting.next (here : Counting i n m k world) (distinct : i ≠ n)
    (range : Number.InRange (k + 1)) :
    Counting i n m (k + 1) (world.set i (.int (Int64.ofInt (k + 1)))) where
  index := ⟨_, by rw [World.get_set, if_pos rfl], Int64.toInt_ofInt_of_le range.1 range.2⟩
  limit := by rw [World.get_set, if_neg distinct, here.limit]

theorem Counting.next_inRange (here : Counting i n m k world) (below : m.toInt + 1 < Number.bound)
    (reached : k ≤ m.toInt) : Number.InRange (k + 1) := by
  obtain ⟨⟨held, -, rfl⟩, -⟩ := here
  have held_range := Number.toInt_inRange held
  simp only [Number.InRange] at held_range ⊢
  omega

theorem CountingBody.counting {run : World → Outcome} (body : CountingBody i n run)
    (here : Counting i n m k world) : Counting i n m k (run world).2 := by
  obtain ⟨⟨held, index, held_eq⟩, limit⟩ := here
  exact ⟨⟨held, by rw [body.index, index], held_eq⟩, by rw [body.limit, limit]⟩

end Header

theorem runEach_normal {α : Type} {step : α → World → Outcome} {items : List α} {world : World}
    (ends : ∀ before x after reached, items = before ++ x :: after →
      runEach step before world = (.normal, reached) → (step x reached).1 = .normal) :
    ∃ final, runEach step items world = (.normal, final) := by
  induction items generalizing world with
  | nil => exact ⟨world, rfl⟩
  | cons x rest ih =>
    have first : step x world = (.normal, (step x world).2) :=
      Prod.ext (ends [] x rest world rfl rfl) rfl
    rw [runEach, first]
    apply ih
    intro before y after reached rest_eq reached_eq
    apply ends (x :: before) y after reached (by rw [rest_eq]; rfl)
    rw [runEach, first]
    exact reached_eq

theorem eq_countFrom_of_split {a k : Int} {count : Nat} {before after : List Int}
    (split : countFrom a count = before ++ k :: after) :
    before = countFrom a before.length ∧ k = a + before.length ∧ before.length < count := by
  induction before generalizing a count with
  | nil =>
    cases count with
    | zero => cases split
    | succ count =>
      obtain ⟨rfl, -⟩ := List.cons.inj split
      exact ⟨rfl, by simp, by simp⟩
  | cons first before ih =>
    cases count with
    | zero => cases split
    | succ count =>
      obtain ⟨rfl, rest⟩ := List.cons.inj split
      obtain ⟨before_eq, k_eq, less⟩ := ih rest
      refine ⟨congrArg _ before_eq, ?_, by simpa using less⟩
      rw [k_eq, List.length_cons]
      omega

section Passes

variable {i n : String} {e : Expr} {header : LoopHeader} {m : Int64} {run : World → Outcome}
  (distinct : i ≠ n) (counts : header.Counts i n e) (below : m.toInt + 1 < Number.bound)
  (body : CountingBody i n run)

include distinct counts below body

/-- A normal pass sets the index one higher, and another pass may follow. -/
theorem Counting.pass {k : Int} {world left : World} (here : Counting i n m k world)
    (reached : k ≤ m.toInt) (run_eq : run world = (.normal, left)) :
    let next := left.set i (.int (Int64.ofInt (k + 1)))
    header.test world = .ok true ∧ runOptional header.update left = .ok next ∧
      Counting i n m (k + 1) next := by
  have left_counts : Counting i n m k left := by
    have behind := body.counting here
    rwa [run_eq] at behind
  have range := here.next_inRange below reached
  refine ⟨?_, counts.update_eq left_counts range, left_counts.next distinct range⟩
  rw [counts.test_eq here, decide_eq_true reached]

/-- After some normal passes the index is as much higher, and the loop has made as many. -/
theorem passes_of_runEach {count : Nat} {a : Int} {world final : World}
    (here : Counting i n m a world) (within : count ≤ (m.toInt + 1 - a).toNat)
    (ends : runEach (countingPass run i) (countFrom a count) world = (.normal, final)) :
    Passes header run count world final ∧ Counting i n m (a + count) final := by
  induction count generalizing a world with
  | zero =>
    cases ends
    simpa using ⟨Passes.none, here⟩
  | succ count ih =>
    rw [countFrom, runEach, countingPass] at ends
    rcases run_eq : run world with ⟨ending, left⟩
    rw [run_eq] at ends
    cases ending with
    | normal =>
      rcases here.pass distinct counts below body (by omega) run_eq with
        ⟨test_eq, update_eq, next_counts⟩
      obtain ⟨passes, counted⟩ := ih next_counts (by omega) ends
      refine ⟨.more test_eq run_eq update_eq passes, ?_⟩
      rwa [Int.natCast_succ, Int.add_comm _ 1, ← Int.add_assoc]
    | _ => cases ends

/-- The loop is the sequence of its passes, by induction on the passes left. -/
theorem iterate_eq_runEach {count fuel : Nat} {k : Int} {world : World}
    (here : Counting i n m k world) (span : (m.toInt + 1 - k).toNat = count)
    (enough : count < fuel) :
    iterate (loopPass header run) fuel world =
      runEach (countingPass run i) (countFrom k count) world := by
  obtain ⟨fuel, rfl⟩ : ∃ more, fuel = more + 1 := ⟨fuel - 1, by omega⟩
  induction count generalizing fuel k world with
  | zero =>
    have test_eq : header.test world = .ok false := by
      rw [counts.test_eq here, decide_eq_false (by omega)]
    rw [iterate, loopPass_eq_some_iff.mpr (.finished test_eq)]
    rfl
  | succ count ih =>
    have reached : k ≤ m.toInt := by omega
    have test_eq : header.test world = .ok true := by
      rw [counts.test_eq here, decide_eq_true reached]
    rw [countFrom, runEach, countingPass, iterate]
    rcases run_eq : run world with ⟨ending, left⟩
    cases ending with
    | normal =>
      obtain ⟨-, update_eq, next_counts⟩ := here.pass distinct counts below body reached run_eq
      obtain ⟨fuel, rfl⟩ : ∃ more, fuel = more + 1 := ⟨fuel - 1, by omega⟩
      rw [loopPass_eq_none_iff.mpr ⟨test_eq, left, run_eq, update_eq⟩]
      exact ih next_counts (by omega) fuel (by omega)
    -- The loop would take this for its normal end, and the sequence would not.
    | broke place => exact absurd (congrArg Prod.fst run_eq) (body.unbroken world place)
    | failed fault => rw [loopPass_eq_some_iff.mpr (.failed test_eq run_eq)]; rfl
    | cutOff => rw [loopPass_eq_some_iff.mpr (.cutOff test_eq run_eq)]; rfl

end Passes

/-- What names no action may change is as it was, whatever a process without new records does. -/
theorem get_unchanged_congruence (name : String) :
    Process.Congruence (fun action => action.target? ≠ some name) fun f _ =>
      ∀ world, (f world).world.store.get name = world.store.get name where
  ended _ _ := rfl
  cutOff _ _ := rfl
  turn _ same := same
  print args _ _ world := world.get_attempt_print args name
  change s other world := s.get_attempt_run world fun same => other (congrArg some same)
  bind _ _ first rest world := (rest _ _).trans (first world)
  test _ _ _ _ same world := same _ world

theorem countingBody_execAll {i n : String} {body : List Stmt} (fuel : Nat)
    (unassigned : ∀ action ∈ actionsAll body, action.target? ≠ some i ∧ action.target? ≠ some n)
    (no_break : looseBreaksAll body = []) : CountingBody i n (execAll fuel body) := by
  have kept (name : String) (other : ∀ action ∈ actionsAll body, action.target? ≠ some name)
      (world : World) : (execAll fuel body world).2.store.get name = world.store.get name := by
    rw [← outcome_processAll]
    exact (get_unchanged_congruence name).all (Nat.le_refl fuel) body other world
  refine ⟨kept i fun action member => (unassigned action member).1,
    kept n fun action member => (unassigned action member).2, ?_⟩
  intro world place
  rw [← outcome_processAll]
  intro broke
  have loose := ((breaksIn_all fuel body).1 world place broke).1
  rw [no_break] at loose
  exact List.not_mem_nil loose

/-- A counting loop is its assignment and then the passes for the integers from the first one to the
limit, up to the first body that does not end normally. In each pass that is reached the index holds
the integer of the pass. Where every body that is reached ends normally the loop does too, after so
many passes, and the index is the greater of the first integer and the one above the limit. -/
theorem exec_counting_loop {i n : String} {e : Expr} {header : LoopHeader} {body : List Stmt}
    {a m : Int64} {fuel : Nat} {world : World} (place : Location) (distinct : i ≠ n)
    (counts : header.Counts i n e)
    (unassigned : ∀ action ∈ actionsAll body,
      action.target? ≠ some i ∧ action.target? ≠ some n)
    (no_break : looseBreaksAll body = []) (first : world.eval e = .ok (.int a))
    (limit : world.store.get n = .int m) (below : m.toInt < 9223372036854775807)
    (enough : (m.toInt + 1 - a.toInt).toNat < fuel) :
    let begun := world.set i (.int a)
    let run := execAll fuel body
    let indices := countUp a.toInt m.toInt
    (Stmt.forLoop header body place).exec fuel world =
      runEach (countingPass run i) indices begun ∧
    (∀ before k after reached, indices = before ++ k :: after →
      runEach (countingPass run i) before begun = (.normal, reached) →
      ∃ held : Int64, reached.store.get i = .int held ∧ held.toInt = k) ∧
    ((∀ before k after reached, indices = before ++ k :: after →
      runEach (countingPass run i) before begun = (.normal, reached) →
      (run reached).1 = .normal) →
      ∃ final, (Stmt.forLoop header body place).exec fuel world = (.normal, final) ∧
        Passes header run (m.toInt + 1 - a.toInt).toNat begun final ∧
        header.test final = .ok false ∧
        ∃ held : Int64, final.store.get i = .int held ∧
          held.toInt = max a.toInt (m.toInt + 1)) := by
  intro begun run indices
  have bound_eq : m.toInt + 1 < Number.bound := by
    simp only [Number.bound]
    omega
  have leaves := countingBody_execAll fuel unassigned no_break
  have begun_counts : Counting i n m a.toInt begun :=
    ⟨⟨a, by rw [World.get_set, if_pos rfl], rfl⟩, by rw [World.get_set, if_neg distinct, limit]⟩
  have init_eq : runOptional header.init world = .ok begun := by
    obtain ⟨⟩ := counts
    rw [runOptional, Simple.run, Simple.newValue, first]
    rfl
  have exec_eq : (Stmt.forLoop header body place).exec fuel world =
      runEach (countingPass run i) indices begun := by
    rw [Stmt.exec, init_eq, World.attempt_ok]
    exact iterate_eq_runEach distinct counts bound_eq leaves begun_counts rfl enough
  refine ⟨exec_eq, ?_, ?_⟩
  · intro before k after reached split reached_eq
    obtain ⟨before_eq, k_eq, less⟩ := eq_countFrom_of_split split
    rw [before_eq] at reached_eq
    rw [k_eq]
    exact (passes_of_runEach distinct counts bound_eq leaves begun_counts (by omega)
      reached_eq).2.index
  · intro normal
    have each_normal : ∃ final, runEach (countingPass run i) indices begun = (.normal, final) := by
      apply runEach_normal
      intro before k after reached split reached_eq
      exact countingPass_normal (normal before k after reached split reached_eq) i k
    obtain ⟨final, final_eq⟩ := each_normal
    rcases passes_of_runEach distinct counts bound_eq leaves begun_counts (Nat.le_refl _)
      final_eq with ⟨passes, counted⟩
    refine ⟨final, exec_eq.trans final_eq, passes, ?_, ?_⟩
    · rw [counts.test_eq counted, decide_eq_false (by omega)]
    · obtain ⟨held, index, held_eq⟩ := counted.index
      exact ⟨held, index, by omega⟩

/-- The header `i = 1; i <= NF; ++i`. -/
def upToFields : LoopHeader :=
  ⟨some (.assign "i" none (.literal (.int 1) .start) .start),
    some (.binary (.relation .lessEqual) (.var "i" .start) (.var "NF" .start) .start),
    some (.increment "i" .up .before .start)⟩

/-- The statements `for (;;) break; last = i`. -/
def keepingLast : List Stmt :=
  [.forLoop ⟨none, none, none⟩ [.breakLoop .start] .start,
    .simple (.assign "last" none (.var "i" .start) .start)]

/-- In a record of three fields the loop makes three passes, and the index is four behind it. -/
theorem exec_counting_loop_to_fields :
    let world : World := ⟨{ Store.start with nf := .int 3 }, .start, .ofRoom none⟩
    ∃ final, (Stmt.forLoop upToFields keepingLast .start).exec 4 world = (.normal, final) ∧
      Passes upToFields (execAll 4 keepingLast) 3 (world.set "i" (.int 1)) final ∧
      final.store.get "i" = .int 4 ∧ final.store.get "last" = .int 3 := by
  intro world
  have counts : upToFields.Counts "i" "NF" (.literal (.int 1) .start) :=
    .upTo .start .start .start .start .start .before
  have unassigned : ∀ action ∈ actionsAll keepingLast,
      action.target? ≠ some "i" ∧ action.target? ≠ some "NF" := by decide +kernel
  have first : world.eval (.literal (.int 1) .start) = .ok (.int 1) := rfl
  have limit : world.store.get "NF" = .int 3 := by decide +kernel
  have enough : ((3 : Int64).toInt + 1 - (1 : Int64).toInt).toNat < 4 := by decide
  rcases exec_counting_loop .start (by decide) counts unassigned rfl first limit (by decide) enough
    with ⟨exec_eq, -, ends⟩
  have last_eq : (runEach (countingPass (execAll 4 keepingLast) "i") (countUp 1 3)
      (world.set "i" (.int 1))).2.store.get "last" = .int 3 := by decide +kernel
  obtain ⟨final, ended, passes, -, held, index, held_eq⟩ := ends fun _ _ _ _ _ _ => rfl
  obtain rfl : held = 4 := Int64.toInt_inj.mp held_eq
  have final_eq := exec_eq.symm.trans ended
  refine ⟨final, ended, passes, index, ?_⟩
  rw [← last_eq]
  exact congrArg (fun outcome : Outcome => outcome.2.store.get "last") final_eq.symm

end FieldScript
