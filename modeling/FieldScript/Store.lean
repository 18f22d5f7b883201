import FieldScript.Value.Basic

/-!
# Variables

All variables are global. Six names are built in and always set; any other name is set when it is
first assigned, and reads as zero before that. Each operation is known by what it does to `lookup`.
-/

namespace FieldScript

inductive Builtin where
  | fs
  | ofs
  | rs
  | ors
  | nf
  | nr
  deriving DecidableEq, Repr

namespace Builtin

def all : List Builtin := [fs, ofs, rs, ors, nf, nr]

def name : Builtin → String
  | fs => "FS"
  | ofs => "OFS"
  | rs => "RS"
  | ors => "ORS"
  | nf => "NF"
  | nr => "NR"

def ofName? (name : String) : Option Builtin := all.find? fun b => b.name = name

def initial : Builtin → Value
  | fs | ofs => .text " "
  | rs | ors => .text "\n"
  | nf | nr => .zero

@[simp] theorem ofName?_name (b : Builtin) : ofName? b.name = some b := by
  cases b <;> decide +kernel

theorem name_of_ofName? {name : String} {b : Builtin} (h : ofName? name = some b) :
    b.name = name := by
  simpa using List.find?_some h

end Builtin

/-- The value of a name in a list of pairs. -/
def lookupPair (name : String) : List (String × Value) → Option Value
  | [] => none
  | (x, v) :: rest => if x = name then some v else lookupPair name rest

/-- Sets the value of a name, in its place when it has one. -/
def assignPair (name : String) (value : Value) : List (String × Value) → List (String × Value)
  | [] => [(name, value)]
  | (x, v) :: rest => if x = name then (x, value) :: rest else (x, v) :: assignPair name value rest

theorem lookupPair_assignPair (name other : String) (value : Value)
    (pairs : List (String × Value)) :
    lookupPair other (assignPair name value pairs) =
      if name = other then some value else lookupPair other pairs := by
  induction pairs with
  | nil => rfl
  | cons pair rest ih => grind [lookupPair, assignPair]

structure Store where
  fs : Value
  ofs : Value
  rs : Value
  ors : Value
  nf : Value
  nr : Value
  user : List (String × Value)
  deriving DecidableEq, Repr

namespace Store

def start : Store where
  fs := Builtin.fs.initial
  ofs := Builtin.ofs.initial
  rs := Builtin.rs.initial
  ors := Builtin.ors.initial
  nf := Builtin.nf.initial
  nr := Builtin.nr.initial
  user := []

def builtin (store : Store) : Builtin → Value
  | .fs => store.fs
  | .ofs => store.ofs
  | .rs => store.rs
  | .ors => store.ors
  | .nf => store.nf
  | .nr => store.nr

def setBuiltin (store : Store) (b : Builtin) (value : Value) : Store :=
  match b with
  | .fs => { store with fs := value }
  | .ofs => { store with ofs := value }
  | .rs => { store with rs := value }
  | .ors => { store with ors := value }
  | .nf => { store with nf := value }
  | .nr => { store with nr := value }

def lookup (store : Store) (name : String) : Option Value :=
  match Builtin.ofName? name with
  | some b => some (store.builtin b)
  | none => lookupPair name store.user

/-- The value that a variable reads as. -/
def get (store : Store) (name : String) : Value := (store.lookup name).getD .zero

def set (store : Store) (name : String) (value : Value) : Store :=
  match Builtin.ofName? name with
  | some b => store.setBuiltin b value
  | none => { store with user := assignPair name value store.user }

theorem builtin_setBuiltin (store : Store) (b other : Builtin) (value : Value) :
    (store.setBuiltin b value).builtin other =
      if b = other then value else store.builtin other := by
  cases b <;> cases other <;> rfl

theorem user_setBuiltin (store : Store) (b : Builtin) (value : Value) :
    (store.setBuiltin b value).user = store.user := by
  cases b <;> rfl

theorem lookup_setBuiltin (store : Store) (b : Builtin) (name : String) (value : Value) :
    (store.setBuiltin b value).lookup name =
      if b.name = name then some value else store.lookup name := by
  unfold lookup
  split
  · next other found =>
    have name_eq := Builtin.name_of_ofName? found
    rw [builtin_setBuiltin]
    split
    · next same => simp [same, name_eq]
    · next different =>
      have : b.name ≠ name := by
        intro same
        rw [← same, Builtin.ofName?_name] at found
        exact different (Option.some.inj found)
      simp [this]
  · next found =>
    have : b.name ≠ name := by
      intro same
      simp [← same] at found
    simp [this, user_setBuiltin]

theorem lookup_set (store : Store) (name other : String) (value : Value) :
    (store.set name value).lookup other =
      if name = other then some value else store.lookup other := by
  unfold set
  split
  · next b found =>
    rw [lookup_setBuiltin, Builtin.name_of_ofName? found]
  · next found =>
    unfold lookup
    split
    · next b found' =>
      have : name ≠ other := by
        intro same
        simp [same, found'] at found
      simp only [this, if_false]
      cases b <;> rfl
    · exact lookupPair_assignPair name other value store.user

theorem get_set (store : Store) (name other : String) (value : Value) :
    (store.set name value).get other = if name = other then value else store.get other := by
  unfold get
  rw [lookup_set]
  split <;> rfl

end Store

end FieldScript
