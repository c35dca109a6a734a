import AirCompiler.Circuit.Build
import AirCompiler.System.Role

/-!
# Errors of compilation

Every cause for which constraints are refused or code cannot be generated, with the text that
reports it.
-/

namespace AirCompiler

/-- Why constraints cannot be compiled. -/
inductive CompileError where
  /-- A circuit could not be built. -/
  | build (e : BuildError)
  /-- A target degree below two. -/
  | targetDegree (target : Int)
  /-- A constraint of another arena. -/
  | foreignConstraint (role : Role) (index : Nat)
  /-- A constraint that looks at the next row, where its role has none. -/
  | nextRowConstraint (role : Role) (index : Nat)
  /-- No constraint exceeds the target degree, so there is nothing to pick. -/
  | noExcess
  /-- Below the constraint with this text there is no factor to pick. -/
  | noFactor (text : String)
  /-- The constraint with this text is no difference of a cell and an expression. -/
  | notSubtraction (text : String)
  /-- A rule of too high a degree. -/
  | ruleDegree (column : Cell) (degree : Nat)
  /-- A rule that defines another column than the one introduced. -/
  | ruleColumn (column found : Cell)
  /-- Two nodes of different arenas with one id. -/
  | repeatedId (id : Nat)
  /-- A node whose count is higher than those still to be declared. -/
  | notDeclared (id count level : Nat)
  /-- A node declared twice. -/
  | declaredTwice (id : Int)
  /-- An id that names no node of the arena at hand. -/
  | unknownNode
  /-- A node that was not counted. -/
  | uncountedNode
  /-- An address offset that is too large to be added without overflow. -/
  | offsetOverflow (offset : Int)
  /-- A shared node whose slot lies in the output array. -/
  | sharedCollision (id : Int) (outputs : Int)
  /-- An output beyond the end of the output array. -/
  | outputOverflow (capacity : Int)
  /-- A region that has no pointer slot. -/
  | noPointerSlot
  /-- More constraints than the output array holds. -/
  | overCapacity (count : Nat) (capacity : Int)
  /-- Two templates of other addressing modes than expected. -/
  | templateModes
  deriving DecidableEq

/-- The compiler found an invariant of its own broken. The other errors are faults of what it was
given. -/
def CompileError.isInvariant : CompileError → Bool
  | .noExcess | .noFactor _ | .notSubtraction _ | .ruleDegree .. | .ruleColumn .. => true
  | .repeatedId _ | .notDeclared .. | .declaredTwice _ => true
  | .offsetOverflow _ | .sharedCollision .. | .outputOverflow _ | .overCapacity .. => true
  | .build _ | .targetDegree _ | .foreignConstraint .. | .nextRowConstraint .. => false
  | .unknownNode | .uncountedNode | .noPointerSlot | .templateModes => false

/-- The text that reports a compile error. -/
def CompileError.message : CompileError → String
  | .build e => e.message
  | .targetDegree target => s!"Target degree must be > 1, got {target}"
  | .foreignConstraint role index => s!"{role.name} constraint {index} belongs to another builder"
  | .nextRowConstraint role index => s!"{role.name} constraint {index} references the next row"
  | .noExcess => "No constraint exceeds the target degree"
  | .noFactor text => s!"Cannot lower degree of {text}"
  | .notSubtraction text => s!"Substitution rule must be a subtraction: {text}"
  | .ruleDegree column degree => s!"Substitution rule for {column.text} has degree {degree}"
  | .ruleColumn column found => s!"Substitution rule for {column.text} unwound to {found.text}"
  | .repeatedId id => s!"Repeated node id: {id}"
  | .notDeclared id count level =>
    s!"Node {id} with count {count} was not bound before reaching count {level}"
  | .declaredTwice id => s!"Node {id} declared twice"
  | .unknownNode => ""
  | .uncountedNode => ""
  | .offsetOverflow offset => s!"Address offset {offset} overflows"
  | .sharedCollision id outputs =>
    s!"Shared node {id} collides with the output array at element {outputs}"
  | .outputOverflow capacity => s!"Too many constraints for the output array: at most {capacity}"
  | .noPointerSlot => ""
  | .overCapacity count capacity =>
    s!"{count} constraints exceed the output array capacity of {capacity}"
  | .templateModes => "Expected one static and one dynamic template"

end AirCompiler
