import AirCompiler.Expr.Basic
import AirCompiler.System.Basic

/-!
# Derived columns

A column that lowering introduced holds the value of the expression that it stands for. Rules of a
single row are evaluated on every row. Rules of the transition bucket are evaluated on every pair of
consecutive rows and fill the first of the two, so they leave the last row as it is.

Main columns are filled before auxiliary ones, and the columns of a table in their order, so that a
rule may use every column introduced before its own.
-/

namespace AirCompiler

/-- Why columns cannot be filled. -/
inductive FillError where
  /-- An expression has no value, or a column lies outside its row. -/
  | eval (e : EvalError)
  /-- A main column was to take a value outside the base field. -/
  | field (e : FieldError)
  /-- Tables of different heights. -/
  | height (main aux : Nat)
  /-- A row of another width than expected. -/
  | width (index : Nat) (table : Table) (found : Nat) (expected : Int)
  deriving DecidableEq

/-- The text that reports a fill error. -/
def FillError.message : FillError → String
  | .eval _ => ""
  | .field e => e.message
  | .height main aux => s!"Main table has {main} rows, aux table has {aux}"
  | .width index table found expected =>
    s!"Row {index} of the {table.name} table has {found} columns, expected {expected}"

/-- How one derived column is filled. -/
structure FillRule where
  column : Int
  role : Role
  expr : Expr

/-- The numbers of columns before lowering, and the rules of the columns after them. -/
structure DerivedColumns where
  givenMain : Int
  givenAux : Int
  mainRules : List FillRule
  auxRules : List FillRule

/-- Both tables of a trace, row by row. -/
structure Tables where
  main : Array (Array Scalar)
  aux : Array (Array Scalar)

/-- Filling tables in place. An error keeps the cells written before it. -/
abbrev Fill := EStateM FillError Tables

namespace DerivedColumns

/-- The fill rule of a rule whose expression stands in the arena. -/
def fillRule? (a : Arena) (role : Role) (rule : Rule) : Option FillRule :=
  (a.circuit? rule.expression).map fun c => ⟨rule.column.column, role, c.expr⟩

/-- The derived columns of a lowering of tables of the given shape. -/
def ofSubstitutions (a : Arena) (subs : Substitutions) (shape : Shape) : DerivedColumns where
  givenMain := shape.mainColumns
  givenAux := shape.auxColumns
  mainRules := Role.all.flatMap fun role => (subs.mainRules role).filterMap (fillRule? a role)
  auxRules := Role.all.flatMap fun role => (subs.auxRules role).filterMap (fillRule? a role)

/-- The number of main columns, derived ones included. -/
def mainColumns (d : DerivedColumns) : Int := d.givenMain + d.mainRules.length

/-- The number of auxiliary columns, derived ones included. -/
def auxColumns (d : DerivedColumns) : Int := d.givenAux + d.auxRules.length

/-- Checks that every row of a table has the given width. -/
def checkWidths (table : Table) (rows : Array (Array Scalar)) (width : Int) :
    Except FillError Unit :=
  rows.toList.zipIdx.forM fun (row, index) =>
    if (row.size : Int) = width then .ok () else .error (.width index table row.size width)

/-- The number of rows that a rule fills: all of them, or all but the last. -/
def filledRows (role : Role) (height : Nat) : Nat := if role.isDualRow then height - 1 else height

/-- The row after a given one, for a rule that looks at it. -/
def following (role : Role) (rows : Array (Array Scalar)) (index : Nat) : Array Scalar :=
  if role.isDualRow then rows.getD (index + 1) #[] else #[]

/-- Replaces a cell of a table. -/
def setCell (rows : Array (Array Scalar)) (index : Nat) (column : Int) (value : Scalar) :
    Except FillError (Array (Array Scalar)) :=
  match position? (rows.getD index #[]).size column with
  | none => .error (.eval .outOfRange)
  | some position => .ok (rows.modify index fun row => row.setIfInBounds position value)

/-- The value of a main column's cell. -/
def mainValue (rule : FillRule) (main : Array (Array Scalar)) (index : Nat) :
    Except FillError Scalar := do
  let rows := { Rows.empty with
    currentMain := main.getD index #[]
    nextMain := following rule.role main index }
  let value ← (rule.expr.eval rows ∅).mapError .eval
  let base ← value.toBase.mapError .field
  return .base base

/-- The value of an auxiliary column's cell. -/
def auxValue (rule : FillRule) (challenges : Array Scalar) (t : Tables) (index : Nat) :
    Except FillError Scalar := do
  let rows : Rows := {
    currentMain := t.main.getD index #[]
    currentAux := t.aux.getD index #[]
    nextMain := following rule.role t.main index
    nextAux := following rule.role t.aux index
    challenges := challenges }
  let value ← (rule.expr.eval rows ∅).mapError .eval
  return .ext value.lift

def fillMainCell (rule : FillRule) (index : Nat) : Fill Unit := fun t =>
  match mainValue rule t.main index >>= setCell t.main index rule.column with
  | .ok main => .ok () { t with main := main }
  | .error e => .error e t

/-- Fills one cell of an auxiliary column. -/
def fillAuxCell (challenges : Array Scalar) (rule : FillRule) (index : Nat) : Fill Unit := fun t =>
  match auxValue rule challenges t index >>= setCell t.aux index rule.column with
  | .ok aux => .ok () { t with aux := aux }
  | .error e => .error e t

/-- Fills columns one after another, each from the first row on. -/
def fillColumns (cell : FillRule → Nat → Fill Unit) (height : Nat) (rules : List FillRule) :
    Fill Unit :=
  rules.forM fun rule => (List.range (filledRows rule.role height)).forM (cell rule)

/-- A check of the tables that does not change them. -/
def checked (check : Tables → Except FillError Unit) : Fill Unit := fun t =>
  match check t with
  | .ok () => .ok () t
  | .error e => .error e t

def fillMain (d : DerivedColumns) : Fill Unit := do
  checked fun t => checkWidths .main t.main d.mainColumns
  fillColumns fillMainCell (← get).main.size d.mainRules

def fillAux (d : DerivedColumns) (challenges : Array Scalar) : Fill Unit := do
  checked fun t => do
    if t.main.size ≠ t.aux.size then throw (.height t.main.size t.aux.size)
    checkWidths .main t.main d.mainColumns
    checkWidths .aux t.aux d.auxColumns
  fillColumns (fillAuxCell challenges) (← get).main.size d.auxRules

end DerivedColumns

end AirCompiler
