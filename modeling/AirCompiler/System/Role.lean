/-!
# Roles of constraints

A constraint system has four buckets of constraints. The role of a bucket says on which rows of a
trace its constraints hold. Buckets are always worked through in the order of `Role.all`.
-/

namespace AirCompiler

/-- Where the constraints of a bucket hold. -/
inductive Role where
  /-- On the first row. -/
  | initial
  /-- On every row by itself. -/
  | consistency
  /-- On every row together with the row after it. -/
  | transition
  /-- On the last row. -/
  | terminal
  deriving DecidableEq

namespace Role

/-- The roles in the order in which buckets are processed. -/
def all : List Role := [.initial, .consistency, .transition, .terminal]

@[simp] theorem mem_all (role : Role) : role ∈ all := by cases role <;> decide

def name : Role → String
  | .initial => "initial"
  | .consistency => "consistency"
  | .transition => "transition"
  | .terminal => "terminal"

/-- Whether constraints of the role may look at the next row. -/
def isDualRow : Role → Bool
  | .transition => true
  | _ => false

/-- The degree of the polynomial that vanishes on the rows where the role's constraints hold, in a
trace of the given height. -/
def zerofierDegree (height : Int) : Role → Int
  | .consistency => height
  | .transition => height - 1
  | .initial | .terminal => 1

end Role

/-- One thing for each role. -/
structure Buckets (α : Type) where
  initial : α
  consistency : α
  transition : α
  terminal : α

namespace Buckets

variable {α β : Type}

/-- The entry of a role. -/
def get (b : Buckets α) : Role → α
  | .initial => b.initial
  | .consistency => b.consistency
  | .transition => b.transition
  | .terminal => b.terminal

/-- The buckets that hold `f r` for each role `r`. -/
def ofFn (f : Role → α) : Buckets α := ⟨f .initial, f .consistency, f .transition, f .terminal⟩

/-- Replaces the entry of a role. -/
def set (b : Buckets α) (role : Role) (x : α) : Buckets α :=
  match role with
  | .initial => { b with initial := x }
  | .consistency => { b with consistency := x }
  | .transition => { b with transition := x }
  | .terminal => { b with terminal := x }

/-- Applies a function to every entry. -/
def map (f : α → β) (b : Buckets α) : Buckets β :=
  ⟨f b.initial, f b.consistency, f b.transition, f b.terminal⟩

/-- The entries in the order of the roles. -/
def toList (b : Buckets α) : List α := [b.initial, b.consistency, b.transition, b.terminal]

/-- The number of elements in four lists. -/
def total (b : Buckets (List α)) : Nat :=
  b.initial.length + b.consistency.length + b.transition.length + b.terminal.length

@[simp] theorem get_ofFn (f : Role → α) (role : Role) : (ofFn f).get role = f role := by
  cases role <;> rfl

@[simp] theorem get_map (f : α → β) (b : Buckets α) (role : Role) :
    (b.map f).get role = f (b.get role) := by
  cases role <;> rfl

@[simp] theorem get_set (b : Buckets α) (role other : Role) (x : α) :
    (b.set role x).get other = if other = role then x else b.get other := by
  cases role <;> cases other <;> rfl

end Buckets

/-- The numbers of main columns, auxiliary columns and challenges that constraints are written
against. -/
structure Shape where
  mainColumns : Int
  auxColumns : Int
  challenges : Int
  deriving DecidableEq

end AirCompiler
