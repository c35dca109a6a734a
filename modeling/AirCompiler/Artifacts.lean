import AirCompiler.Source.Modules

/-!
# Artifacts

Everything that is generated from one constraint system: the lowered constraints with all rules,
evaluation code, fill rules of the derived columns, assembly in both addressing modes, and the
source modules. The log tells what was done, in order.
-/

namespace AirCompiler

/-- What is generated from a constraint system. -/
structure Artifacts where
  /-- The shape of the tables before lowering. -/
  givenShape : Shape
  /-- The lowered constraints, with the constraints of all rules. -/
  system : ConstraintSystem
  substitutions : Substitutions
  evaluation : Evaluation
  columns : DerivedColumns
  static : Template
  dynamic : Template

def ConstraintSystem.allCircuits (s : ConstraintSystem) : Buckets (List Circuit) := .ofFn s.circuits

/-- Generates code from a system whose buckets are lowered. -/
def Artifacts.ofLowered (params : Params) (lowered : ConstraintSystem) (subs : Substitutions) :
    Except CompileError Artifacts := do
  let combined := lowered.combine subs
  if params.capacity < combined.count then throw (.overCapacity combined.count params.capacity)
  let evaluation ← Evaluation.ofCircuits combined.allCircuits
  let static ← Template.ofCircuits ⟨.static, params⟩ combined.shape combined.allCircuits
  let dynamic ← Template.ofCircuits ⟨.dynamic, params⟩ combined.shape combined.allCircuits
  return {
    givenShape := lowered.shape
    system := combined
    substitutions := subs
    evaluation := evaluation
    columns := .ofSubstitutions lowered.arena subs lowered.shape
    static := static
    dynamic := dynamic }

/-- Lowers a system to the target degree and generates all code. The system's buckets are replaced
by the lowered ones. -/
def generate (params : Params) : EStateM CompileError ConstraintSystem Artifacts := do
  let subs ← ConstraintSystem.lower params.target
  fun lowered =>
    match Artifacts.ofLowered params lowered subs with
    | .ok artifacts => .ok artifacts lowered
    | .error e => .error e lowered

/-- How much a log line matters. -/
inductive LogLevel where
  | debug
  | info
  | error
  deriving DecidableEq

def LogLevel.name : LogLevel → String
  | .debug => "DEBUG"
  | .info => "INFO"
  | .error => "ERROR"

structure LogLine where
  level : LogLevel
  message : String

/-- The line as it is written. -/
def LogLine.text (l : LogLine) : String := s!"[{l.level.name}] {l.message}"

namespace Artifacts

/-- What lowering did in one bucket. -/
def loweringLog (x : Artifacts) (role : Role) : List LogLine :=
  let subs := x.substitutions
  (subs.rules.get role).map (fun rule =>
    let degree := ((x.system.arena.node? rule.expression).map Node.degree).getD 0
    ⟨.debug, s!"substituted node {rule.expression} of degree {degree} by {rule.column.text}"⟩) ++
  [⟨.debug, s!"lowered {role.name} constraints: {(subs.mainRules role).length} main and " ++
    s!"{(subs.auxRules role).length} aux substitutions"⟩]

/-- The evaluation code of one bucket; a bucket without constraints is not mentioned. -/
def evaluationLog (x : Artifacts) (role : Role) : List LogLine :=
  let b := x.evaluation.get role
  if b.count = 0 then []
  else [⟨.debug, s!"{role.name}: {b.bindings.length} shared bindings, {b.base.length} base and " ++
    s!"{b.ext.length} ext constraints"⟩]

/-- The assembly of one template. -/
def templateLog (t : Template) : LogLine :=
  ⟨.debug, s!"{t.mode.name} assembly: {t.code.size} instructions for {t.count} constraints"⟩

/-- What generation reports, in order. -/
def log (x : Artifacts) : List LogLine :=
  let subs := x.substitutions
  let ruleCount := subs.mainCount + subs.auxCount
  [⟨.info, s!"generating constraint evaluation code for {x.system.count - ruleCount} " ++
    "constraints"⟩] ++
  Role.all.flatMap x.loweringLog ++
  [⟨.info, s!"degree lowering to {subs.target} added {subs.mainCount} main and " ++
    s!"{subs.auxCount} aux columns"⟩] ++
  Role.all.flatMap x.evaluationLog ++
  [templateLog x.static, templateLog x.dynamic,
    ⟨.info, s!"generated {x.system.count} constraints over {x.system.shape.mainColumns} main " ++
      s!"and {x.system.shape.auxColumns} aux columns"⟩]

/-- The name of the evaluation module's file. -/
def evaluationFile : String := "constraints.py"

/-- The name of the fill routines' file. -/
def columnsFile : String := "degree_lowering_table.py"

/-- The name of the assembly module's file. -/
def assemblyFile : String := "tasm_air_constraints.py"

/-- The generated files by name. -/
def files (x : Artifacts) : Except CompileError (List (String × String)) := do
  let assembly ← Source.assemblyModule x.static x.dynamic
  return [
    (evaluationFile, Source.evaluationModule x.evaluation x.system.shape),
    (columnsFile, Source.columnsModule x.columns),
    (assemblyFile, assembly)]

end Artifacts

end AirCompiler
