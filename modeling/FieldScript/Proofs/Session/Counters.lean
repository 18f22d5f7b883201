import FieldScript.Proofs.Eval.Invariant

/-!
# The counters

As long as neither the program nor a caller sets `NR` or `NF`, at every moment of a session `NF` is
the number of fields of the current record and `NR` the number of records that all runs so far have
begun. A run that fails or is cut off keeps them right too.
-/

namespace FieldScript

/-- What can be done with a session. -/
inductive Call where
  | setSeparator (separator : String)
  | setVariable (name text : String)
  | run (fuel : Nat) (input : String) (room : Option Nat)
  deriving DecidableEq

namespace Session

/-- The session after a call, which may have been a run that failed. -/
def call (session : Session) : Call → Session
  | .setSeparator separator => session.setSeparator separator
  | .setVariable name text => session.setVariable name text
  | .run fuel input room => (session.run fuel input room).session

def callAll (session : Session) (calls : List Call) : Session := calls.foldl call session

def moments (session : Session) : Call → List Moment
  | .run fuel input room => (session.course fuel input room).moments
  | _ => []

/-- The moments of calls made one after the other. -/
def history (session : Session) : List Call → List Moment
  | [] => []
  | call :: rest => session.moments call ++ (session.call call).history rest

end Session

def Moment.beginsRecord (moment : Moment) : Bool :=
  match moment.event with
  | .record line => (moment.world.beginRecord line).isOk
  | _ => false

abbrev NoCounter (name : String) : Prop := name ≠ "NF" ∧ name ≠ "NR"

/-- `NF` is the number of fields, and `NR` is the count while that fits 64 bits. -/
def Counted (count : Nat) (store : Store) (record : Record) : Prop :=
  store.get "NF" = .int (Int64.ofNat record.fields.length) ∧
    ((count : Int) < Number.bound → store.get "NR" = .int (Int64.ofNat count))

theorem Number.fit_natCast {n : Nat} (h : (n : Int) < bound) : fit n = some (Int64.ofNat n) := by
  rw [fit, if_pos ⟨by unfold bound; omega, h⟩, Int64.ofInt_eq_ofNat]

theorem Value.add_one_count {n : Nat} (h : ((n + 1 : Nat) : Int) < Number.bound) :
    Value.arithmetic .add (.int (Int64.ofNat n)) (.int 1) = .ok (.int (Int64.ofNat (n + 1))) := by
  have n_eq : (Int64.ofNat n).toInt = n := Number.toInt_of_fit (Number.fit_natCast (by omega))
  have sum_eq : Number.fit ((Int64.ofNat n).toInt + (1 : Int64).toInt) =
      some (Int64.ofNat (n + 1)) := by
    rw [n_eq, ← Number.fit_natCast h]
    rfl
  change Except.ok (ofNumber (Arith.onNumbers .add _ _)) = _
  rw [Arith.onNumbers, Arith.onIntegerPair, Arith.onIntegers, sum_eq]
  rfl

namespace Counted

variable {count : Nat} {store : Store} {record : Record}

theorem set (h : Counted count store record) {name : String} (value : Value)
    (other : NoCounter name) : Counted count (store.set name value) record := by
  unfold Counted
  rw [Store.get_set, Store.get_set, if_neg other.1, if_neg other.2]
  exact h

theorem start : Counted 0 .start .start := by
  refine ⟨Store.start.get_name .nf, fun _ => Store.start.get_name .nr⟩

/-- The record that is begun is counted, and its fields are. -/
theorem withRecord {world : World} (h : Counted count world.store world.record) {nr : Value}
    (counts : Value.arithmetic .add world.store.nr (.int 1) = .ok nr) (line : String) :
    Counted (count + 1) (world.withRecord line nr).store (world.withRecord line nr).record := by
  refine ⟨Store.get_name _ .nf, fun small => ?_⟩
  have nr_eq : world.store.nr = .int (Int64.ofNat count) := by
    rw [← h.2 (by omega)]
    exact (Store.get_name _ .nr).symm
  rw [nr_eq, Value.add_one_count small] at counts
  rw [Except.ok.inj counts]
  exact Store.get_name _ .nr

end Counted

theorem counted_invariant :
    Invariant (fun a => ∀ name ∈ a.target?, NoCounter name)
      (fun count world => Counted count world.store world.record)
      fun count moment => count + moment.beginsRecord.toNat where
  plain {event} plain count world holds := by
    have none_begun : Moment.beginsRecord ⟨event, world⟩ = false := by
      cases event with
      | record line => simp [Event.isPlain] at plain
      | _ => rfl
    rw [none_begun]
    exact holds
  print place _ _ world holds := by
    obtain ⟨sink, ends⟩ := world.attempt_print _
    rw [ends]
    exact holds
  change {s} ok _ world holds := by
    rcases s.run_cases world with ⟨fault, -, fails⟩ | ⟨v, -, taken⟩
    · rw [fails]
      exact holds
    · rw [taken]
      exact holds.set v (ok _ rfl)
  record line count world holds := by
    rcases world.beginRecord_cases line with ⟨fault, -, fails⟩ | ⟨nr, counts, begun⟩
    · simpa [Moment.beginsRecord, fails, Except.isOk, Except.toBool] using holds
    · simpa [Moment.beginsRecord, begun, Except.isOk, Except.toBool] using
        holds.withRecord counts line

theorem foldl_begun (count : Nat) (moments : List Moment) :
    moments.foldl (fun count moment => count + moment.beginsRecord.toNat) count =
      count + moments.countP Moment.beginsRecord := by
  induction moments generalizing count with
  | nil => rfl
  | cons moment rest ih =>
    rw [List.foldl_cons, ih, List.countP_cons]
    cases moment.beginsRecord with
    | false => simp
    | true => simp only [Bool.toNat_true, if_true]; omega

namespace Session

variable {session : Session} {count : Nat}

/-- What is kept along the moments of calls. -/
abbrev CountedAlong (count : Nat) (moments : List Moment) : Prop :=
  Along (fun count world => Counted count world.store world.record)
    (fun count moment => count + moment.beginsRecord.toNat) count moments

theorem counted_call (free : ∀ name ∈ session.program.targets, NoCounter name)
    (holds : Counted count session.store session.record) {call : Call}
    (kept : ∀ name text, call = .setVariable name text → NoCounter name) :
    CountedAlong count (session.moments call) ∧
      Counted (count + (session.moments call).countP Moment.beginsRecord)
        (session.call call).store (session.call call).record := by
  cases call with
  | setSeparator separator =>
    rw [Session.call, setSeparator, Store.setBuiltin_eq_set]
    exact ⟨trivial, holds.set _ (by decide)⟩
  | setVariable name text => exact ⟨trivial, holds.set _ (kept name text rfl)⟩
  | run fuel input room =>
    have actions_ok : ∀ a ∈ session.program.actions, ∀ name ∈ a.target?, NoCounter name :=
      fun a member name target => free name (List.mem_filterMap.mpr ⟨a, member, target⟩)
    have start : Counted count (session.world room).store (session.world room).record := holds
    have kept_along := counted_invariant.program session.program actions_ok fuel input start
    rw [foldl_begun] at kept_along
    rw [call, run_eq_course]
    exact kept_along

variable (session) in
theorem counted_calls (free : ∀ name ∈ session.program.targets, NoCounter name)
    (holds : Counted count session.store session.record) {calls : List Call}
    (kept : ∀ name text, .setVariable name text ∈ calls → NoCounter name) :
    CountedAlong count (session.history calls) ∧
      Counted (count + (session.history calls).countP Moment.beginsRecord)
        (session.callAll calls).store (session.callAll calls).record := by
  induction calls generalizing session count with
  | nil => exact ⟨trivial, holds⟩
  | cons call rest ih =>
    have same_program : (session.call call).program = session.program := by cases call <;> rfl
    rcases counted_call free holds fun name text is_set =>
      kept name text (is_set ▸ List.mem_cons_self) with ⟨along_call, after_call⟩
    rcases ih (session.call call) (same_program ▸ free) after_call fun name text member =>
      kept name text (List.mem_cons_of_mem _ member) with ⟨along_rest, after_rest⟩
    refine ⟨along_append.mpr ⟨along_call, ?_⟩, ?_⟩
    · rw [foldl_begun]
      exact along_rest
    · rw [history, List.countP_append, ← Nat.add_assoc]
      exact after_rest

/-- `NF` and `NR` are right at every moment of every session whose program and callers leave them
alone, and between the calls. -/
theorem counters_right (program : Program) (free : ∀ name ∈ program.targets, NoCounter name)
    (calls : List Call) (kept : ∀ name text, .setVariable name text ∈ calls → NoCounter name) :
    (∀ before moment after, (ofProgram program).history calls = before ++ moment :: after →
      Counted (before.countP Moment.beginsRecord) moment.world.store moment.world.record) ∧
    Counted (((ofProgram program).history calls).countP Moment.beginsRecord)
      ((ofProgram program).callAll calls).store ((ofProgram program).callAll calls).record := by
  obtain ⟨along, final⟩ := counted_calls (ofProgram program) free Counted.start kept
  rw [Nat.zero_add] at final
  refine ⟨fun before moment after split => ?_, final⟩
  have counted := along.at_moment split
  rwa [foldl_begun, Nat.zero_add] at counted

/-- The program `{ s += $1; print s } END { s = s / 0 }`. -/
def summing : Program :=
  let s := Expr.var "s" .start
  [⟨.eachRecord none,
      [.simple (.assign "s" (some .add) (.field (.literal (.int 1) .start) .start) .start),
        .print [s] .start],
      .start⟩,
    ⟨.atEnd,
      [.simple (.assign "s" none
        (.binary (.arith .divide) s (.literal (.int 0) .start) .start) .start)],
      .start⟩]

/-- The first run fails at its end and the second one at its first write. Three records are
begun. -/
theorem counters_right_summing :
    let calls : List Call := [.setSeparator ",", .setVariable "s" "5", .run 9 "1,2\n \n3" none,
      .run 9 "4,5,6" (some 0)]
    let session := (ofProgram summing).callAll calls
    session.record.line = "4,5,6" ∧ session.store.get "NF" = .int 3 ∧
      session.store.get "NR" = .int 3 := by
  intro calls session
  have free : ∀ name ∈ summing.targets, NoCounter name := by decide +kernel
  have kept : ∀ name text, .setVariable name text ∈ calls → NoCounter name := by
    intro name text member
    simp only [calls, List.mem_cons, reduceCtorEq, Call.setVariable.injEq, List.not_mem_nil,
      false_or, or_false] at member
    rw [member.1]
    decide
  have right := (counters_right summing free calls kept).2
  have begun : ((ofProgram summing).history calls).countP Moment.beginsRecord = 3 := by
    decide +kernel
  have fields : session.record.fields.length = 3 := by decide +kernel
  rw [begun] at right
  refine ⟨by decide +kernel, ?_, right.2 (by decide)⟩
  rw [right.1, fields]
  rfl

end Session

end FieldScript
