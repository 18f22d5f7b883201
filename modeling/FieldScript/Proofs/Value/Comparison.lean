import FieldScript.Eval.Expr
import FieldScript.Proofs.Numeric.Order

/-!
# The order of values

Exchanging two values reverses their comparison, so each relation says the same as its converse from
the other side. Numbers are ordered by the ranks of their floats, and two integers by themselves.
The two orders differ only on integers that share a float. Main statements: the relations agree with
each other on all values, and comparison is transitive on numbers except from an integer, over its
float, to a lower integer with the same float.
-/

namespace FieldScript

namespace Relation

def converse : Relation → Relation
  | less => greater
  | lessEqual => greaterEqual
  | greater => less
  | greaterEqual => lessEqual
  | equal => equal
  | notEqual => notEqual

def complement : Relation → Relation
  | less => greaterEqual
  | lessEqual => greater
  | greater => lessEqual
  | greaterEqual => less
  | equal => notEqual
  | notEqual => equal

/-- Below, equal, above: the relations that exclude each other. -/
def exclusive : List Relation := [less, equal, greater]

theorem holds_converse (relation : Relation) (order : Ordering) :
    relation.converse.holds order.swap = relation.holds order := by
  cases relation <;> cases order <;> rfl

theorem holds_complement (relation : Relation) (order : Ordering) :
    relation.complement.holds order = !relation.holds order := by
  cases relation <;> cases order <;> rfl

theorem exists_holds (order : Ordering) :
    ∃ only ∈ exclusive, ∀ relation ∈ exclusive,
      relation.holds order = decide (relation = only) := by
  cases order with
  | lt => exact ⟨less, by decide, by decide⟩
  | eq => exact ⟨equal, by decide, by decide⟩
  | gt => exact ⟨greater, by decide, by decide⟩

end Relation

namespace Number

open Numeric

theorem compare_float_left (x : Float) (n : Number) :
    (float x).compare n = compareFloats x n.toFloat := rfl

theorem compare_float_right (m : Number) (x : Float) :
    m.compare (float x) = compareFloats m.toFloat x := by
  cases m <;> rfl

theorem compare_int (m n : Int64) : (int m).compare (int n) = Ord.compare m.toInt n.toInt := rfl

theorem compare_swap (m n : Number) : n.compare m = (m.compare n).swap := by
  cases m with
  | float x =>
    rw [compare_float_right, compare_float_left]
    exact compareFloats_swap x n.toFloat
  | int i =>
    cases n with
    | float x =>
      rw [compare_float_right, compare_float_left]
      exact compareFloats_swap (ofInt i.toInt) x
    | int j =>
      rw [compare_int, compare_int]
      exact Std.OrientedCmp.eq_swap

theorem natAbs_toInt_le (n : Int64) : n.toInt.natAbs ≤ 2 ^ 63 := by
  have low := n.le_toInt
  have high := n.toInt_lt
  omega

theorem isNaN_toFloat_int (n : Int64) : (int n).toFloat.isNaN = false :=
  isNaN_ofInt (natAbs_toInt_le n)

theorem rank_toFloat_mono {m n : Int64} (h : m.toInt ≤ n.toInt) :
    rank (int m).toFloat ≤ rank (int n).toFloat :=
  rank_ofInt_mono (natAbs_toInt_le m) (natAbs_toInt_le n) h

/-- A number that does not compare as greater has no higher rank. -/
theorem rank_le_of_compare {m n : Number} (m_number : m.toFloat.isNaN = false)
    (n_number : n.toFloat.isNaN = false) (h : m.compare n ≠ .gt) :
    rank m.toFloat ≤ rank n.toFloat := by
  have of_floats (floats : m.compare n = compareFloats m.toFloat n.toFloat) :
      rank m.toFloat ≤ rank n.toFloat := by
    rw [floats, compareFloats_eq m_number n_number] at h
    exact not_lt.mp fun above => h (compare_gt_iff_gt.mpr above)
  cases m with
  | float x => exact of_floats (compare_float_left x n)
  | int i =>
    cases n with
    | float x => exact of_floats (compare_float_right (.int i) x)
    | int j =>
      apply rank_toFloat_mono
      exact not_lt.mp fun above => h (compare_gt_iff_gt.mpr above)

end Number

namespace Value

open Numeric

theorem compare_swap (l r : Value) : compare r l = (compare l r).swap := by
  unfold compare
  rw [numericPair_swap l r]
  cases numericPair l r with
  | none =>
    change Ord.compare r.display l.display = (Ord.compare l.display r.display).swap
    exact Std.OrientedCmp.eq_swap
  | some pair => exact Number.compare_swap pair.1 pair.2

theorem compare_self (v : Value) : compare v v = .eq := by
  have self_swap := compare_swap v v
  cases order : compare v v with
  | eq => rfl
  | lt | gt =>
    rw [order] at self_swap
    cases self_swap

theorem relate_converse (relation : Relation) (l r : Value) :
    relate relation.converse r l = relate relation l r := by
  rw [relate, compare_swap l r, Relation.holds_converse, relate]

theorem relate_complement (relation : Relation) (l r : Value) :
    relate relation.complement l r = (relate relation l r).not := by
  rw [relate, Relation.holds_complement, relate]
  cases relation.holds (compare l r) <;> rfl

theorem relate_eq_one_iff (relation : Relation) (l r : Value) :
    relate relation l r = .int 1 ↔ relation.holds (compare l r) = true := by
  rw [relate]
  cases relation.holds (compare l r) <;> decide

theorem compare_ofNumber (m n : Number) : compare (ofNumber m) (ofNumber n) = m.compare n := by
  cases m <;> cases n <;> rfl

def IsNumber : Value → Prop
  | int _ => True
  | float x => x.isNaN = false
  | text _ => False

theorem IsNumber.exists_number {v : Value} (h : v.IsNumber) :
    ∃ n : Number, v = ofNumber n ∧ n.toFloat.isNaN = false := by
  cases v with
  | int n => exact ⟨.int n, rfl, Number.isNaN_toFloat_int n⟩
  | float x => exact ⟨.float x, rfl, h⟩
  | text s => exact h.elim

/-- Two integers, the lower one last, and a float between them that equals both. -/
inductive Conflated : Value → Value → Value → Prop where
  | intro {m n : Int64} {x : Float} (above : n.toInt < m.toInt)
      (equal_first : compare (int m) (float x) = .eq)
      (equal_last : compare (float x) (int n) = .eq)
      (large_first : 2 ^ 53 ≤ m.toInt.natAbs) (large_last : 2 ^ 53 ≤ n.toInt.natAbs) :
      Conflated (int m) (float x) (int n)

theorem Conflated.compare_gt {a b c : Value} (h : Conflated a b c) : compare a c = .gt := by
  cases h with
  | intro above => exact compare_gt_iff_gt.mpr above

/-- A float between two integers in the wrong order is the float of both. -/
theorem conflated_of_rank {m n : Int64} {x : Float} (x_number : x.isNaN = false)
    (above : n.toInt < m.toInt) (from_first : rank (ofInt m.toInt) ≤ rank x)
    (to_last : rank x ≤ rank (ofInt n.toInt)) : Conflated (int m) (float x) (int n) := by
  have mono : rank (ofInt n.toInt) ≤ rank (ofInt m.toInt) := Number.rank_toFloat_mono above.le
  have first_eq : rank (ofInt m.toInt) = rank x := le_antisymm from_first (to_last.trans mono)
  have last_eq : rank x = rank (ofInt n.toInt) := le_antisymm to_last (mono.trans from_first)
  have not_exact : ¬(n.toInt.natAbs < 2 ^ 53 ∨ m.toInt.natAbs < 2 ^ 53) := by
    intro exact_one
    apply (from_first.trans to_last).not_gt
    exact rank_ofInt_strictMono (Number.natAbs_toInt_le n) (Number.natAbs_toInt_le m) above
      exact_one
  apply Conflated.intro above
  · exact (Number.compareFloats_eq (Number.isNaN_toFloat_int m) x_number).trans
      (compare_eq_iff_eq.mpr first_eq)
  · exact (Number.compareFloats_eq x_number (Number.isNaN_toFloat_int n)).trans
      (compare_eq_iff_eq.mpr last_eq)
  · omega
  · omega

theorem conflated_of_compare {a b c : Number} (a_number : a.toFloat.isNaN = false)
    (b_number : b.toFloat.isNaN = false) (c_number : c.toFloat.isNaN = false)
    (ab : a.compare b ≠ .gt) (bc : b.compare c ≠ .gt) (ac : a.compare c = .gt) :
    Conflated (ofNumber a) (ofNumber b) (ofNumber c) := by
  have from_first := Number.rank_le_of_compare a_number b_number ab
  have to_last := Number.rank_le_of_compare b_number c_number bc
  have not_floats : ¬a.compare c = Number.compareFloats a.toFloat c.toFloat := by
    intro floats
    rw [floats, Number.compareFloats_eq a_number c_number, compare_gt_iff_gt] at ac
    exact (from_first.trans to_last).not_gt ac
  cases a with
  | float x => exact absurd (Number.compare_float_left x c) not_floats
  | int m =>
    cases c with
    | float x => exact absurd (Number.compare_float_right (.int m) x) not_floats
    | int n =>
      have above : n.toInt < m.toInt := compare_gt_iff_gt.mp ac
      cases b with
      | float x => exact conflated_of_rank b_number above from_first to_last
      | int k =>
        have first_le : m.toInt ≤ k.toInt := not_lt.mp fun h => ab (compare_gt_iff_gt.mpr h)
        have le_last : k.toInt ≤ n.toInt := not_lt.mp fun h => bc (compare_gt_iff_gt.mpr h)
        omega

theorem compare_gt_iff_conflated {a b c : Value} (a_number : a.IsNumber) (b_number : b.IsNumber)
    (c_number : c.IsNumber) (ab : compare a b ≠ .gt) (bc : compare b c ≠ .gt) :
    compare a c = .gt ↔ Conflated a b c := by
  constructor
  · intro ac
    obtain ⟨a, rfl, a_float⟩ := a_number.exists_number
    obtain ⟨b, rfl, b_float⟩ := b_number.exists_number
    obtain ⟨c, rfl, c_float⟩ := c_number.exists_number
    rw [compare_ofNumber] at ab bc ac
    exact conflated_of_compare a_float b_float c_float ab bc ac
  · exact Conflated.compare_gt

theorem relate_equal_iff (l r : Value) : relate .equal l r = .int 1 ↔ compare l r = .eq := by
  rw [relate_eq_one_iff]
  exact Ordering.isEq_iff_eq_eq

/-- Comparison is transitive on numbers, and so is `==`, except where it goes from an integer to its
float and from there to another integer with that float. -/
theorem compare_trans_or_conflated {a b c : Value} (a_number : a.IsNumber)
    (b_number : b.IsNumber) (c_number : c.IsNumber) :
    (compare a b ≠ .gt → compare b c ≠ .gt → (compare a c = .gt ↔ Conflated a b c)) ∧
    (relate .equal a b = .int 1 → relate .equal b c = .int 1 →
      (relate .equal a c = .int 1 ↔ ¬Conflated a b c ∧ ¬Conflated c b a)) := by
  constructor
  · exact compare_gt_iff_conflated a_number b_number c_number
  · intro ab bc
    rw [relate_equal_iff] at ab bc ⊢
    have ba : compare b a = .eq := by rw [compare_swap a b, ab]; rfl
    have cb : compare c b = .eq := by rw [compare_swap b c, bc]; rfl
    rw [← compare_gt_iff_conflated a_number b_number c_number (by simp [ab]) (by simp [bc]),
      ← compare_gt_iff_conflated c_number b_number a_number (by simp [cb]) (by simp [ba]),
      compare_swap a c]
    cases compare a c <;> simp

/-- The integers -9007199254740992 and -9007199254740993 have one float. -/
theorem conflated_below : Conflated (int (-9007199254740992)) (float (-9007199254740992.0))
    (int (-9007199254740993)) := by
  have exception := compare_trans_or_conflated (a := int (-9007199254740992))
    (b := float (-9007199254740992.0)) (c := int (-9007199254740993)) trivial rfl trivial
  exact (exception.1 (by decide +kernel) (by decide +kernel)).mp (by decide +kernel)

/-- The float 9007199254740992 equals the integers 9007199254740992 and 9007199254740993. -/
theorem compare_intransitive :
    (float 9007199254740992.0).IsNumber ∧
    compare (int 9007199254740993) (float 9007199254740992.0) = .eq ∧
    compare (float 9007199254740992.0) (int 9007199254740992) = .eq ∧
    compare (int 9007199254740993) (int 9007199254740992) = .gt ∧
    relate .equal (int 9007199254740993) (int 9007199254740992) = .int 0 ∧
    relate .less (int 9007199254740992) (int 9007199254740993) = .int 1 :=
  ⟨rfl, by decide +kernel, by decide +kernel, by decide +kernel, by decide +kernel,
    by decide +kernel⟩

end Value

namespace Expr

/-- What all relations between two expressions say together, of whatever values. -/
structure RelationsAgree (store : Store) (record : Record) (a b : Expr) (l r : Value) :
    Prop where
  reversed : Value.compare r l = (Value.compare l r).swap
  reflexive : Value.compare l l = .eq
  /-- A pair compares by numbers from both sides, and by the same two, or by texts from both. -/
  alike : Value.numericPair r l = (Value.numericPair l r).map Prod.swap
  converse : ∀ relation place other,
    (binary (.relation relation.converse) b a place).eval store record =
      (binary (.relation relation) a b other).eval store record
  complement : ∀ relation place other outer,
    (binary (.relation relation.complement) a b place).eval store record =
      (unary .not (binary (.relation relation) a b other) outer).eval store record
  exactly_one : ∃ only ∈ Relation.exclusive, ∀ relation ∈ Relation.exclusive, ∀ place,
    (binary (.relation relation) a b place).eval store record =
      .ok (if relation = only then .int 1 else .int 0)

variable {store : Store} {record : Record} {a b : Expr} {l r : Value}

theorem eval_relation (a_value : a.eval store record = .ok l)
    (b_value : b.eval store record = .ok r) (relation : Relation) (place : Location) :
    (binary (.relation relation) a b place).eval store record =
      .ok (Value.relate relation l r) := by
  rw [eval, a_value, b_value]
  rfl

/-- The relations between two expressions that have values agree with each other. -/
theorem relations_agree (a_value : a.eval store record = .ok l)
    (b_value : b.eval store record = .ok r) : RelationsAgree store record a b l r where
  reversed := Value.compare_swap l r
  reflexive := Value.compare_self l
  alike := Value.numericPair_swap l r
  converse := by
    intro relation place other
    rw [eval_relation b_value a_value, eval_relation a_value b_value, Value.relate_converse]
  complement := by
    intro relation place other outer
    rw [eval_relation a_value b_value, Value.relate_complement, eval,
      eval_relation a_value b_value]
    rfl
  exactly_one := by
    obtain ⟨only, only_exclusive, holds_eq⟩ := Relation.exists_holds (Value.compare l r)
    refine ⟨only, only_exclusive, ?_⟩
    intro relation relation_exclusive place
    rw [eval_relation a_value b_value, Value.relate, holds_eq relation relation_exclusive,
      Value.ofBool]
    simp only [decide_eq_true_eq]

/-- A variable that is not a number against a text that is one. -/
theorem relations_agree_nan :
    RelationsAgree (Store.start.set "x" (.float (0.0 / 0.0))) .start (var "x" .start)
      (literal (.text "7") .start) (.float (0.0 / 0.0)) (.text "7") :=
  relations_agree rfl rfl

end Expr

end FieldScript
