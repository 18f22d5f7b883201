import FieldScript.Proofs.Eval.Course
import FieldScript.Proofs.Program.Actions

/-!
# Congruences of processes

A congruence relates processes and is respected by the operations that they are put together from.
It relates the process of a program to itself, when the actions of the program are among those that
it allows for, and also to the process of the program with more fuel. The induction over statements
and loops is done here once.
-/

namespace FieldScript

/-- Whether turning to an event does nothing yet. -/
def Event.isPlain : Event → Bool
  | .record _ | .statement (.print ..) | .statement (.simple _) => false
  | _ => true

namespace Process

/-- Nothing follows a fault or a loop that is cut off. -/
def IsSequel (next : Ending → Process) : Prop :=
  (∀ fault, next (.failed fault) = ended (.failed fault)) ∧ next .cutOff = ended .cutOff

theorem isSequel_afterNormal (g : Process) : IsSequel (afterNormal g) := ⟨fun _ => rfl, rfl⟩

theorem isSequel_afterPass (g : Process) : IsSequel (afterPass g) := ⟨fun _ => rfl, rfl⟩

theorem isSequel_afterAction : IsSequel afterAction := ⟨fun _ => rfl, rfl⟩

/-- A relation that is respected by the operations on processes. A process that is cut off stands
for any other, since more fuel can make anything of it. -/
structure Congruence (allowed : Action → Prop) (R : Process → Process → Prop) : Prop where
  ended (ending : Ending) : R (ended ending) (ended ending)
  cutOff (g : Process) : R (Process.ended .cutOff) g
  turn {event : Event} {f g : Process} (plain : event.isPlain = true) (related : R f g) :
    R (turn event f) (turn event g)
  print (args : List Expr) (place : Location) (ok : allowed (.print args)) :
    R (attempt (.statement (.print args place)) (World.print args))
      (attempt (.statement (.print args place)) (World.print args))
  change (s : Simple) (ok : allowed (.change s)) : R (simple s) (simple s)
  bind {f g : Process} {next next' : Ending → Process} (sequel : IsSequel next)
    (sequel' : IsSequel next') (first : R f g) (rest : ∀ ending, R (next ending) (next' ending)) :
    R (f.bind next) (g.bind next')
  test (e : Expr) {f g : Except RunFault Value → Process} (ok : allowed (.test e))
    (related : ∀ result, R (f result) (g result)) :
    R (read (·.eval e) f) (read (·.eval e) g)

/-- A congruence that respects the steps of whole runs too, which begin records and read `RS`. -/
structure RunCongruence (allowed : Action → Prop) (R : Process → Process → Prop) : Prop
    extends Congruence allowed R where
  record (line : String) :
    R (attempt (.record line) (·.beginRecord line)) (attempt (.record line) (·.beginRecord line))
  separator {f g : String → Process} (related : ∀ text, R (f text) (g text)) :
    R (read (·.store.rs.display) f) (read (·.store.rs.display) g)

namespace Congruence

variable {allowed : Action → Prop} {R : Process → Process → Prop} {f f' g g' : Process}

theorem andThen (h : Congruence allowed R) (first : R f f') (rest : R g g') :
    R (f.andThen g) (f'.andThen g') := by
  refine h.bind (isSequel_afterNormal g) (isSequel_afterNormal g') first fun ending => ?_
  cases ending with
  | normal => exact rest
  | _ => exact h.ended _

theorem pass (h : Congruence allowed R) (first : R f f') (rest : R g g') :
    R (f.pass g) (f'.pass g') := by
  refine h.bind (isSequel_afterPass g) (isSequel_afterPass g') first fun ending => ?_
  cases ending with
  | normal => exact rest
  | _ => exact h.ended _

theorem action (h : Congruence allowed R) (related : R f f') : R f.action f'.action := by
  refine h.bind isSequel_afterAction isSequel_afterAction related fun ending => ?_
  cases ending <;> exact h.ended _

theorem branch (h : Congruence allowed R) {e : Expr} (ok : allowed (.test e)) (yes : R f f')
    (no : R g g') : R (branch e f g) (Process.branch e f' g') := by
  apply h.test e ok
  intro result
  cases result with
  | error fault => exact h.ended _
  | ok v =>
    cases truth : v.isTruthy with
    | true => simpa [chosen, truth] using yes
    | false => simpa [chosen, truth] using no

theorem guard (h : Congruence allowed R) {condition : Option Expr}
    (ok : ∀ e ∈ condition, allowed (.test e)) (related : R f f') :
    R (guard condition f) (Process.guard condition f') := by
  cases condition with
  | none => exact related
  | some e => exact h.branch (ok e rfl) related (h.ended .normal)

theorem given (h : Congruence allowed R) {s : Option Simple}
    (ok : ∀ s' ∈ s, allowed (.change s')) : R (given s) (Process.given s) := by
  cases s with
  | none => exact h.ended .normal
  | some s => exact h.change s (ok s rfl)

theorem each (h : Congruence allowed R) {α : Type} {f g : α → Process} (items : List α)
    (related : ∀ x ∈ items, R (f x) (g x)) : R (each f items) (Process.each g items) := by
  induction items with
  | nil => exact h.ended .normal
  | cons x rest ih =>
    have first := related x List.mem_cons_self
    exact h.andThen first (ih fun y member => related y (List.mem_cons_of_mem x member))

theorem loop (h : Congruence allowed R) {header : LoopHeader}
    (ok : ∀ a ∈ header.actions, allowed a) (body : R f f') {n m : Nat} (le : n ≤ m) :
    R (loop header f n) (Process.loop header f' m) := by
  induction n generalizing m with
  | zero => exact h.cutOff _
  | succ n ih =>
    obtain ⟨m, rfl⟩ : ∃ k, m = k + 1 := ⟨m - 1, by omega⟩
    have condition_ok : ∀ e ∈ header.condition, allowed (.test e) := fun e member =>
      ok _ (LoopHeader.mem_actions.mpr (.inr (.inl ⟨e, member, rfl⟩)))
    have update_ok : ∀ s ∈ header.update, allowed (.change s) := fun s member =>
      ok _ (LoopHeader.mem_actions.mpr (.inr (.inr ⟨s, member, rfl⟩)))
    exact h.guard condition_ok (h.pass body (h.andThen (h.given update_ok) (ih (by omega))))

mutual

theorem stmt (h : Congruence allowed R) {fuel more : Nat} (le : fuel ≤ more) :
    (s : Stmt) → (∀ a ∈ s.actions, allowed a) → R (s.process fuel) (s.process more)
  | .print args place, ok => h.print args place (ok _ List.mem_cons_self)
  | .simple s, ok => h.change s (ok _ List.mem_cons_self)
  | .ifElse condition thenBranch elseBranch place, ok => by
    simp only [Stmt.actions, List.mem_cons, List.mem_append] at ok
    apply h.turn rfl
    apply h.branch (ok _ (.inl rfl))
    · exact h.all le thenBranch fun a member => ok a (.inr (.inl member))
    · exact h.branchElse le elseBranch fun a member => ok a (.inr (.inr member))
  | .forLoop header body place, ok => by
    simp only [Stmt.actions, List.mem_append] at ok
    have body_related := h.all le body fun a member => ok a (.inr member)
    have header_ok : ∀ a ∈ header.actions, allowed a := fun a member => ok a (.inl member)
    have init_ok : ∀ s ∈ header.init, allowed (.change s) := fun s member =>
      header_ok _ (LoopHeader.mem_actions.mpr (.inl ⟨s, member, rfl⟩))
    apply h.turn rfl
    exact h.andThen (h.given init_ok) (h.loop header_ok body_related le)
  | .breakLoop place, _ => h.turn rfl (h.ended _)
  | .block body place, ok => h.turn rfl (h.all le body ok)

theorem branchElse (h : Congruence allowed R) {fuel more : Nat} (le : fuel ≤ more) :
    (branch : Option (List Stmt)) → (∀ a ∈ actionsElse branch, allowed a) →
      R (processElse fuel branch) (processElse more branch)
  | none, _ => h.ended .normal
  | some branch, ok => h.all le branch ok

theorem all (h : Congruence allowed R) {fuel more : Nat} (le : fuel ≤ more) :
    (body : List Stmt) → (∀ a ∈ actionsAll body, allowed a) →
      R (processAll fuel body) (processAll more body)
  | [], _ => h.ended .normal
  | s :: rest, ok => by
    simp only [actionsAll, List.mem_append] at ok
    exact h.andThen (h.stmt le s fun a member => ok a (.inl member))
      (h.all le rest fun a member => ok a (.inr member))

end

theorem ruleAction (h : Congruence allowed R) {fuel more : Nat} (le : fuel ≤ more) {rule : Rule}
    (ok : ∀ a ∈ rule.actions, allowed a) :
    R (processAll fuel rule.body).action (processAll more rule.body).action :=
  h.action (h.all le rule.body fun a member => ok a (List.mem_append_right _ member))

theorem perRecord (h : Congruence allowed R) {fuel more : Nat} (le : fuel ≤ more) {rule : Rule}
    (ok : ∀ a ∈ rule.actions, allowed a) : R (rule.perRecord fuel) (rule.perRecord more) := by
  have acts := h.ruleAction le ok
  unfold Rule.perRecord
  cases trigger_eq : rule.trigger with
  | eachRecord pattern =>
    refine h.turn rfl (h.guard (fun e member => ok _ (List.mem_append_left _ ?_)) acts)
    simp [trigger_eq, Trigger.pattern, Option.mem_def.mp member]
  | _ => exact h.ended .normal

theorem once (h : Congruence allowed R) {fuel more : Nat} (le : fuel ≤ more) {rule : Rule}
    (ok : ∀ a ∈ rule.actions, allowed a) : R (rule.once fuel) (rule.once more) :=
  h.turn rfl (h.ruleAction le ok)

end Congruence

/-- The process of a program is related to itself, and to itself with more fuel. -/
theorem RunCongruence.program {allowed : Action → Prop} {R : Process → Process → Prop}
    (h : RunCongruence allowed R) {fuel more : Nat} (le : fuel ≤ more) (program : Program)
    (ok : ∀ a ∈ program.actions, allowed a) (input : String) :
    R (program.process fuel input) (program.process more input) := by
  have rule_ok : ∀ rule ∈ program, ∀ a ∈ rule.actions, allowed a :=
    fun rule member a inside => ok a (List.mem_flatMap.mpr ⟨rule, member, inside⟩)
  have once (p : Rule → Bool) :
      R (Process.each (Rule.once fuel) (program.filter p))
        (Process.each (Rule.once more) (program.filter p)) :=
    h.each _ fun rule member => h.once le (rule_ok rule (List.mem_filter.mp member).1)
  have records (lines : List String) :
      R (Process.each (program.onRecord fuel) lines) (Process.each (program.onRecord more) lines) :=
    h.each _ fun line _ => h.andThen (h.record line)
      (h.each _ fun rule member => h.perRecord le (rule_ok rule member))
  exact h.andThen (once _) (h.andThen (h.separator fun text => records _) (once _))

end Process

end FieldScript
