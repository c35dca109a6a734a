import AirCompiler.System.Samples
import AirCompiler.Text.Quoted

/-!
# Named constraint systems

Constraint systems are named by a module and a function in it, joined by a colon.
-/

namespace AirCompiler.Cli

/-- Why a name gives no constraint system. -/
inductive SpecError where
  /-- Not of the form of a module and a function. -/
  | malformed (spec : String)
  /-- No such function in the module. -/
  | notCallable (spec : String)
  /-- No such module. -/
  | unknownModule
  /-- The module's name begins with a dot: it is relative to a module, and there is none. -/
  | relativeModule (moduleName : String)
  deriving DecidableEq

/-- The text that reports a bad name. -/
def SpecError.message : SpecError → String
  | .malformed spec => s!"Expected MODULE:FUNCTION, got {Text.quoted spec}"
  | .notCallable spec => s!"{spec} is not a callable"
  | .unknownModule => ""
  | .relativeModule moduleName =>
    s!"the 'package' argument is required to perform a relative import for {Text.quoted moduleName}"

/-- Whether a bad name is logged as an error. Where there is no module to look into, the program
breaks off instead. -/
def SpecError.logged : SpecError → Bool
  | .malformed _ | .notCallable _ => true
  | .unknownModule | .relativeModule _ => false

/-- The modules with their functions. -/
def modules : List (String × List (String × ConstraintSystem)) :=
  [("airgen.airs", [("mini_constraints", .fibonacci), ("test_constraints", .synthetic)]),
    ("airgen.params", [])]

/-- A text up to its first colon, and the text after it. -/
def splitColon (s : String) : String × Option String :=
  match s.toList.dropWhile (· != ':') with
  | [] => (s, none)
  | _ :: rest => (String.ofList (s.toList.takeWhile (· != ':')), some (String.ofList rest))

def loadSystem (spec : String) : Except SpecError ConstraintSystem :=
  match splitColon spec with
  | (_, none) => .error (.malformed spec)
  | (moduleName, some functionName) =>
    if moduleName = "" ∨ functionName = "" then .error (.malformed spec)
    else if moduleName.toList.head? = some '.' then .error (.relativeModule moduleName)
    else
      match modules.lookup moduleName with
      | none => .error .unknownModule
      | some functions =>
        match functions.lookup functionName with
        | some system => .ok system
        | none => .error (.notCallable spec)

end AirCompiler.Cli
