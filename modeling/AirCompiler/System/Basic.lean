import AirCompiler.System.Lowering

/-!
# Constraint systems

The constraints of an arithmetization in four buckets, over one arena. Lowering replaces the buckets
one after another, and numbers new columns through all of them. Order within a bucket matters, as
evaluated constraints are told apart by position; so lowering keeps the positions, and rules are
appended only.
-/

namespace AirCompiler

/-- Four buckets of constraints over one arena, with the shape of the tables that they are written
against. -/
structure ConstraintSystem where
  arena : Arena
  shape : Shape
  buckets : Buckets (List Handle)

/-- The rules that lowering introduced in each bucket, in order, and the target degree. -/
structure Substitutions where
  target : Int
  rules : Buckets (List Rule)

namespace Substitutions

/-- No rules. -/
def empty : Substitutions := ⟨0, .ofFn fun _ => []⟩

/-- The rules of a bucket that introduce main columns. -/
def mainRules (s : Substitutions) (role : Role) : List Rule := (s.rules.get role).filter Rule.isMain

/-- The rules of a bucket that introduce auxiliary columns. -/
def auxRules (s : Substitutions) (role : Role) : List Rule :=
  (s.rules.get role).filter fun rule => !rule.isMain

/-- The number of new main columns. -/
def mainCount (s : Substitutions) : Nat := (Buckets.ofFn s.mainRules).total

/-- The number of new auxiliary columns. -/
def auxCount (s : Substitutions) : Nat := (Buckets.ofFn s.auxRules).total

end Substitutions

namespace ConstraintSystem

/-- The number of constraints. -/
def count (s : ConstraintSystem) : Nat := s.buckets.total

/-- The constraints of a bucket that stand in the system's arena. -/
def circuits (s : ConstraintSystem) (role : Role) : List Circuit :=
  (s.buckets.get role).filterMap fun h => s.arena.circuit? h.id

/-- Checks one constraint: it belongs to the arena, and looks at the next row only if its role
allows that. -/
def checkConstraint (s : ConstraintSystem) (role : Role) (index : Nat) (h : Handle) :
    Except CompileError Unit :=
  if h.owner ≠ s.arena.name then .error (.foreignConstraint role index)
  else
    match s.arena.circuit? h.id with
    | none => .error .unknownNode
    | some c =>
      if !role.isDualRow && c.usesNextRow then .error (.nextRowConstraint role index) else .ok ()

/-- Checks all constraints in order. -/
def validate (s : ConstraintSystem) : Except CompileError Unit :=
  Role.all.forM fun role => do
    (s.buckets.get role).zipIdx.forM fun (h, index) => s.checkConstraint role index h

def lowerBucket (limits : Limits) (role : Role) :
    EStateM CompileError ConstraintSystem Lowered := fun s =>
  match Lower.bucket limits (s.circuits role) s.arena with
  | .ok low a =>
    .ok low
      { s with arena := a, buckets := s.buckets.set role (low.constraints.map Circuit.handle) }
  | .error e a => .error e { s with arena := a }

/-- Lowers the buckets of the given roles one after another. Columns are numbered through all of
them. -/
def lowerBuckets : List Role → Limits → Substitutions →
    EStateM CompileError ConstraintSystem Substitutions
  | [], _, subs => pure subs
  | role :: roles, limits, subs => do
    let low ← lowerBucket limits role
    lowerBuckets roles (limits.after low.rules)
      { subs with rules := subs.rules.set role low.rules.toList }

/-- Lowers every bucket to the target degree. The rules are returned and not yet part of the
buckets. -/
def lower (target : Int) : EStateM CompileError ConstraintSystem Substitutions := fun s =>
  let checked : Except CompileError Limits := do
    s.validate
    Limits.check target s.shape.mainColumns s.shape.auxColumns
  match checked with
  | .error e => .error e s
  | .ok limits => lowerBuckets Role.all limits { Substitutions.empty with target := target } s

/-- Appends to every bucket the constraints of its main rules, then those of its auxiliary rules,
and widens the tables by the new columns. -/
def combine (s : ConstraintSystem) (subs : Substitutions) : ConstraintSystem where
  arena := s.arena
  shape :=
    { s.shape with
      mainColumns := s.shape.mainColumns + subs.mainCount
      auxColumns := s.shape.auxColumns + subs.auxCount }
  buckets := .ofFn fun role =>
    s.buckets.get role ++
      (subs.mainRules role ++ subs.auxRules role).map fun rule => ⟨s.arena.name, rule.constraint⟩

end ConstraintSystem

end AirCompiler
