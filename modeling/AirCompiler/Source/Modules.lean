import AirCompiler.Assembly.Simulation
import AirCompiler.Evaluation.Bucket
import AirCompiler.Evaluation.DerivedColumns
import AirCompiler.Expr.Text

/-!
# Generated modules

Generated source is a list of lines under a header that names the module's content. There are three
modules:

* of evaluation functions. For every bucket: a function that binds the shared nodes and returns all
  outputs, two entry points that lift the outputs, and the bounds on the quotients' degrees. At the
  end, a function that evaluates all buckets.
* of fill routines. Two functions that fill the derived columns of the main and of the auxiliary
  table.
* of assembly code. Two functions that return the instructions for static and for dynamic
  addressing, given pointers to the regions.
-/

namespace AirCompiler.Source

/-! ## Lines -/

/-- A line indented by the given number of levels, four blanks each. -/
def indent (levels : Nat) (line : String) : String := "".pushn ' ' (4 * levels) ++ line

/-- The header of a module. -/
def header (title : String) : String :=
  s!"\"\"\"{title}\n\nGenerated by airgen. Do not edit.\n\"\"\"\n"

/-- The text of a module. -/
def text (lines : List String) : String := "\n".intercalate lines ++ "\n"

def numberList (ns : List Nat) : String := "[" ++ ", ".intercalate (ns.map toString) ++ "]"

/-! ## Evaluation functions -/

/-- The parameters of a bucket's functions. -/
def signature (role : Role) : String :=
  if role.isDualRow then
    "current_main_row, current_aux_row, next_main_row, next_aux_row, challenges"
  else "main_row, aux_row, challenges"

/-- The assignments of bindings, each after the temporaries that it needs. Temporaries are numbered
through. -/
def bindingLines (dual : Bool) : List Binding → Array String → List String × Array String
  | [], temporaries => ([], temporaries)
  | b :: bs, temporaries =>
    let (value, extended) := b.expr.textWith dual temporaries
    let (rest, final) := bindingLines dual bs extended
    (extended.toList.drop temporaries.size ++ (s!"{Expr.sharedName b.node} = {value}" :: rest),
      final)

/-- The texts of outputs, with the temporaries that they need appended to those given. -/
def outputTexts (dual : Bool) : List Expr → Array String → List String × Array String
  | [], temporaries => ([], temporaries)
  | e :: es, temporaries =>
    let (value, temporaries) := e.textWith dual temporaries
    let (rest, temporaries) := outputTexts dual es temporaries
    (value :: rest, temporaries)

def bodyLines (b : BucketEvaluation) : List String :=
  let dual := b.role.isDualRow
  let (assignments, temporaries) := bindingLines dual b.bindings #[]
  let (outputs, extended) := outputTexts dual (b.outputs.map Output.expr) temporaries
  assignments ++ extended.toList.drop temporaries.size ++ ["return ["] ++
    outputs.map (fun output => indent 1 s!"{output},") ++ ["]"]

/-- The name of a role at the start of a sentence. -/
def roleTitle : Role → String
  | .initial => "Initial"
  | .consistency => "Consistency"
  | .transition => "Transition"
  | .terminal => "Terminal"

/-- The zerofier's degree as an expression in the trace's height. -/
def zerofierText : Role → String
  | .initial | .terminal => "1"
  | .consistency => "padded_height"
  | .transition => "padded_height - 1"

/-- An entry point that lifts the outputs of a bucket. -/
def entryLines (role : Role) (suffix rowKind : String) : List String :=
  [s!"def evaluate_{role.name}_constraints{suffix}({signature role}):",
    indent 1 s!"\"\"\"{roleTitle role} constraints, main rows over the {rowKind} field.\"\"\"",
    indent 1 s!"return [value.lift() for value in _{role.name}_constraints({signature role})]",
    "", ""]

/-- All functions of a bucket. -/
def bucketLines (b : BucketEvaluation) : List String :=
  [s!"def _{b.role.name}_constraints({signature b.role}):"] ++ (bodyLines b).map (indent 1) ++
    ["", ""] ++ entryLines b.role "" "base" ++ entryLines b.role "_ext" "extension" ++
    [s!"def {b.role.name}_quotient_degree_bounds(interpolant_degree, padded_height):",
      indent 1 s!"zerofier_degree = {zerofierText b.role}",
      indent 1 <| "return [interpolant_degree * degree - zerofier_degree for degree in " ++
        s!"{numberList b.degrees}]",
      "", ""]

/-- The call of a bucket's entry point in the evaluation of all buckets. -/
def callLine (role : Role) : String :=
  let arguments :=
    if role.isDualRow then signature role else "current_main_row, current_aux_row, challenges"
  let joined := if role = .terminal then "" else " +"
  indent 2 s!"evaluate_{role.name}_constraints_ext({arguments}){joined}"

def evaluationModule (e : Evaluation) (shape : Shape) : String :=
  text <|
    [header "AIR constraint evaluation.", "",
      "from airgen.field import BFieldElement, XFieldElement", "",
      s!"NUM_MAIN_COLUMNS = {shape.mainColumns}",
      s!"NUM_AUX_COLUMNS = {shape.auxColumns}",
      s!"NUM_CHALLENGES = {shape.challenges}"] ++
    Role.all.map (fun role => s!"NUM_{role.name.toUpper}_CONSTRAINTS = {(e.get role).count}") ++
    ["", ""] ++
    Role.all.flatMap (fun role => bucketLines (e.get role)) ++
    ["def evaluate_all_constraints(current_main_row, current_aux_row, next_main_row, " ++
        "next_aux_row, challenges):",
      indent 1 "return ("] ++
    Role.all.map callLine ++
    [indent 1 ")"]

/-! ## Fill routines -/

/-- The loop variables over the rows that a rule fills. -/
def loopVariables (table : Table) (dual : Bool) : String :=
  match table, dual with
  | .main, false => "current_main_row"
  | .main, true => "current_main_row, next_main_row"
  | .aux, false => "current_main_row, current_aux_row"
  | .aux, true => "(current_main_row, next_main_row), (current_aux_row, next_aux_row)"

/-- The rows that a rule fills. -/
def loopRows (table : Table) (dual : Bool) : String :=
  match table, dual with
  | .main, false => "main_table"
  | .main, true => "zip(main_table, main_table[1:])"
  | .aux, false => "zip(main_table, aux_table)"
  | .aux, true => "zip(zip(main_table, main_table[1:]), zip(aux_table, aux_table[1:]))"

/-- The loop that fills one column. -/
def fillLines (table : Table) (rule : FillRule) : List String :=
  let dual := rule.role.isDualRow
  let (value, temporaries) := rule.expr.textWith true #[]
  let lifted := match table with
    | .main => value
    | .aux => s!"XFieldElement.zero() + {value}"
  [indent 1 s!"# {rule.role.name}",
    indent 1 s!"for {loopVariables table dual} in {loopRows table dual}:"] ++
  temporaries.toList.map (indent 2) ++
  [indent 2 s!"current_{table.name}_row[{rule.column}] = {lifted}"]

/-- The text of the module of fill routines. -/
def columnsModule (d : DerivedColumns) : String :=
  text <|
    [header "Fill routines of columns introduced by degree lowering.", "",
      "from airgen.field import BFieldElement, XFieldElement", "",
      s!"NUM_ORIGINAL_MAIN_COLUMNS = {d.givenMain}",
      s!"NUM_ORIGINAL_AUX_COLUMNS = {d.givenAux}",
      s!"NUM_MAIN_COLUMNS = {d.mainColumns}",
      s!"NUM_AUX_COLUMNS = {d.auxColumns}",
      "", "",
      "def _check_width(table, width):",
      indent 1 "for row in table:",
      indent 2 "if len(row) != width:",
      indent 3 "raise ValueError(f\"Expected \x7bwidth\x7d columns, got \x7blen(row)\x7d\")",
      "", "",
      "def fill_derived_main_columns(main_table):",
      indent 1 "_check_width(main_table, NUM_MAIN_COLUMNS)"] ++
    d.mainRules.flatMap (fillLines .main) ++
    ["", "",
      "def fill_derived_aux_columns(main_table, aux_table, challenges):",
      indent 1 "if len(main_table) != len(aux_table):",
      indent 2 "raise ValueError(\"Main and aux table differ in height\")",
      indent 1 "_check_width(main_table, NUM_MAIN_COLUMNS)",
      indent 1 "_check_width(aux_table, NUM_AUX_COLUMNS)"] ++
    d.auxRules.flatMap (fillLines .aux)

/-! ## Assembly code -/

def pointerName (region : Region) : String := s!"{region.name}_ptr"

/-- An instruction as a constructor call. -/
def instructionText (i : Instruction) : String :=
  let name := i.opcode.mnemonic.toUpper
  match i.argument? with
  | none => s!"Instruction(Opcode.{name})"
  | some (.word n) => s!"Instruction(Opcode.{name}, {n})"
  | some (.address a) =>
    s!"Instruction(Opcode.{name}, _address({pointerName a.region}, {a.offset}))"

/-- The function that returns a template's code. -/
def templateLines (t : Template) (name : String) (pointers : List Region) : List String :=
  let parameters := ", ".intercalate (pointers.map pointerName)
  [s!"def {name}({parameters}):", indent 1 "return ["] ++
    t.code.toList.map (fun i => indent 2 s!"{instructionText i},") ++ [indent 1 "]"]

/-- The text of the assembly module, for a template of each addressing mode. -/
def assemblyModule (static dynamic : Template) : Except CompileError String :=
  if static.mode ≠ .static ∨ dynamic.mode ≠ .dynamic then .error .templateModes
  else .ok <| text <|
    [header "AIR constraint evaluation in stack machine assembly.", "",
      "from airgen.field import GOLDILOCKS_PRIME",
      "from airgen.isa import Instruction, Opcode", "",
      s!"NUM_CONSTRAINTS = {static.count}",
      "", "",
      "def _address(pointer, offset):",
      indent 1 "return (pointer + offset) % GOLDILOCKS_PRIME",
      "", ""] ++
    templateLines static "static_air_constraint_evaluation" Region.all ++
    ["", ""] ++
    templateLines dynamic "dynamic_air_constraint_evaluation" [.page, .challenges]

end AirCompiler.Source
