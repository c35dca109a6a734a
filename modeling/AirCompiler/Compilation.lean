import AirCompiler.Artifacts
import AirCompiler.Circuit.Workspace

/-!
# Compilations

A compilation carries a constraint system through lowering and code generation. Evaluation code,
fill rules and assembly are those of the last generation as long as the system is unchanged since;
otherwise they are made from the system as it stands.
-/

namespace AirCompiler

/-- A constraint system on its way to code. -/
structure Compilation where
  params : Params
  /-- The arenas of constraints that are not in the system's own arena. -/
  others : Workspace
  system : ConstraintSystem
  /-- The rules of the last lowering. -/
  substitutions : Substitutions
  /-- The shape before the last lowering. -/
  givenShape : Shape
  artifacts : Option Artifacts

/-- A step of a compilation. An error keeps what was done before it. -/
abbrev Compile := EStateM CompileError Compilation

namespace Compilation

/-- A compilation at its start. -/
def ofSystem (params : Params) (system : ConstraintSystem) (others : Workspace) : Compilation where
  params := params
  others := others
  system := system
  substitutions := .empty
  givenShape := system.shape
  artifacts := none

/-- The circuits of all buckets, each in its own arena. -/
def circuits (c : Compilation) : Buckets (List Circuit) :=
  let arenas := c.others.set c.system.arena
  c.system.buckets.map fun hs => hs.filterMap arenas.circuit?

/-- The evaluation code. -/
def evaluation (c : Compilation) : Except CompileError Evaluation :=
  match c.artifacts with
  | some x => .ok x.evaluation
  | none => Evaluation.ofCircuits c.circuits

def template (c : Compilation) (mode : Addressing) : Except CompileError Template :=
  match c.artifacts, mode with
  | some x, .static => .ok x.static
  | some x, .dynamic => .ok x.dynamic
  | none, mode => Template.ofCircuits ⟨mode, c.params⟩ c.system.shape c.circuits

/-- The fill rules of the derived columns. -/
def columns (c : Compilation) : DerivedColumns :=
  match c.artifacts with
  | some x => x.columns
  | none => .ofSubstitutions c.system.arena c.substitutions c.givenShape

/-- Lowers the system to a target degree. -/
def lower (target : Int) : Compile Unit := fun c =>
  match ConstraintSystem.lower target c.system with
  | .ok subs system =>
    .ok () { c with
      system := system
      substitutions := subs
      givenShape := c.system.shape
      artifacts := none }
  | .error e system => .error e { c with system := system, artifacts := none }

/-- Adds the constraints of the last lowering's rules to the system. -/
def combine (c : Compilation) : Compilation :=
  { c with system := c.system.combine c.substitutions, artifacts := none }

/-- Generates all code. The system becomes the one that the code evaluates. -/
def generate : Compile Unit := fun c =>
  match AirCompiler.generate c.params c.system with
  | .ok x _ =>
    .ok () { c with
      system := x.system, substitutions := x.substitutions, givenShape :=
        x.givenShape, artifacts := some x }
  | .error e system => .error e { c with system := system, artifacts := none }

end Compilation

end AirCompiler
