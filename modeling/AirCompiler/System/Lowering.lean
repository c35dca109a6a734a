import AirCompiler.CompileError
import AirCompiler.Circuit.Substitute

/-!
# Lowering the degree

Constraints of too high a degree are brought down to a target degree. A factor of moderate degree is
replaced by a new column, and the rule `column - factor = 0` is added, which also says how to fill
the column.

The factor is found by descending from the first constraint above the target: at a product, the
first factor of a degree between two and the target is taken; otherwise the first operand above the
target is entered. A summand is never taken, as that would not lower the degree of the sum.
-/

namespace AirCompiler

/-- The target degree and the numbers of columns in use. -/
structure Limits where
  target : Int
  mainColumns : Int
  auxColumns : Int
  two_le_target : 2 ≤ target

/-- Limits with a target degree from two on. -/
def Limits.check (target mainColumns auxColumns : Int) : Except CompileError Limits :=
  if h : 2 ≤ target then .ok ⟨target, mainColumns, auxColumns, h⟩ else .error (.targetDegree target)

/-- The largest degree of a list of circuits, and `-1` if there are none. -/
def maxDegree (cs : List Circuit) : Int := cs.foldl (fun d c => max d c.degree) (-1)

/-- The operands of an operation have smaller ids. -/
theorem Circuit.child_lt {c : Circuit} {op : Op} {l r : Nat} (h : c.node.label = .binary op l r) :
    l < c.id ∧ r < c.id := by
  have := c.arena.ordered c.id c.isLt
  rw [Circuit.node] at h
  simp only [h, Label.rank] at this
  omega

theorem Arena.id_of_circuit? {a : Arena} {i : Nat} {c : Circuit} (h : a.circuit? i = some c) :
    c.id = i := by
  unfold Arena.circuit? at h
  split at h
  · cases h; rfl
  · cases h

/-- Whether a factor of this circuit's degree may be replaced by a column. -/
def Circuit.isModerate (target : Int) (c : Circuit) : Bool :=
  1 < c.degree && (c.degree : Int) ≤ target

set_option linter.unusedVariables false in
/-- The factor to replace below a circuit above the target degree. -/
def Circuit.factor? (target : Int) (c : Circuit) : Option Circuit :=
  match h : c.node.label with
  | .leaf _ => none
  | .binary op l r =>
    match hl : c.arena.circuit? l, hr : c.arena.circuit? r with
    | some x, some y =>
      if op = .mul && x.isModerate target then some x
      else if op = .mul && y.isModerate target then some y
      else if target < x.degree then x.factor? target
      else if target < y.degree then y.factor? target
      else none
    | _, _ => none
termination_by c.id
decreasing_by
  · rw [Arena.id_of_circuit? hl]; exact (Circuit.child_lt h).1
  · rw [Arena.id_of_circuit? hr]; exact (Circuit.child_lt h).2

/-- The factor to replace in a list of constraints. -/
def pickFactor (target : Int) (cs : List Circuit) : Except CompileError Circuit :=
  match cs.find? fun c => target < c.degree with
  | none => .error .noExcess
  | some c =>
    match c.factor? target with
    | some d => .ok d
    | none => .error (.noFactor c.text)

/-- A constraint `column - expression`; expression and constraint are ids of the arena at hand. -/
structure Rule where
  column : Cell
  expression : Nat
  constraint : Nat
  deriving DecidableEq

def Rule.isMain (rule : Rule) : Bool := rule.column.table = .main

def Circuit.isMinusOne (c : Circuit) : Bool := c.node.label = .leaf (.constant (.base .minusOne))

/-- The other factor of a product with minus one. -/
def Circuit.negated? (c : Circuit) : Option Nat :=
  match c.node.label with
  | .binary .mul l r =>
    if (c.arena.circuit? l).any Circuit.isMinusOne then some r
    else if (c.arena.circuit? r).any Circuit.isMinusOne then some l
    else none
  | _ => none

def Circuit.cell? (c : Circuit) : Option Cell :=
  match c.node.label with
  | .leaf (.input cell) => some cell
  | _ => none

/-- The column and the expression of `column + (-1) * expression`. -/
def Circuit.difference? (column negated : Circuit) : Option (Cell × Nat) := do
  let cell ← column.cell?
  let expression ← negated.negated?
  return (cell, expression)

/-- Reads a constraint as a rule. Both operand orders of the sum and of the product are accepted. -/
def Rule.ofCircuit (c : Circuit) : Except CompileError Rule :=
  let found : Option (Cell × Nat) :=
    match c.node.label with
    | .binary .add l r =>
      match c.arena.circuit? l, c.arena.circuit? r with
      | some x, some y => x.difference? y <|> y.difference? x
      | _, _ => none
    | _ => none
  match found with
  | some (cell, expression) => .ok ⟨cell, expression, c.id⟩
  | none => .error (.notSubtraction c.text)

/-- The limits after columns were taken for new rules. -/
def Limits.after (limits : Limits) (rules : Array Rule) : Limits :=
  { limits with
    mainColumns := limits.mainColumns + rules.countP Rule.isMain
    auxColumns := limits.auxColumns + rules.countP fun rule => !rule.isMain }

/-- Lowering in an arena. An error keeps the arena as it was left. -/
abbrev Lower := EStateM CompileError Arena

/-- Lowered constraints, and the rules in the order in which they were introduced. -/
structure Lowered where
  constraints : List Circuit
  rules : Array Rule

namespace Lower

/-- A construction as part of lowering. -/
def build {α : Type} (x : Build α) : Lower α := EStateM.adaptExcept .build x

/-- A step that does not touch the arena. -/
def ofExcept {α : Type} : Except CompileError α → Lower α
  | .ok x => pure x
  | .error e => throw e

/-- The column for a factor: the next main column if its values are base elements, else the next
auxiliary column. -/
def nextColumn (limits : Limits) (rules : Array Rule) (chosen : Circuit) : Cell :=
  if chosen.isBase then ⟨.current, .main, limits.mainColumns + rules.countP Rule.isMain⟩
  else ⟨.current, .aux, limits.auxColumns + rules.countP fun rule => !rule.isMain⟩

/-- The rule at a node, checked against the column that it was made for. -/
def checkedRule (target : Int) (column : Cell) (c : Circuit) : Except CompileError Rule := do
  let rule ← Rule.ofCircuit c
  if target < c.degree then throw (.ruleDegree column c.degree)
  if rule.column ≠ column then throw (.ruleColumn column rule.column)
  return rule

def circuit (id : Nat) : Lower Circuit := fun a =>
  match a.circuit? id with
  | some c => .ok c a
  | none => .error .unknownNode a

/-- Replaces one factor by a new column in all constraints, and adds the rule of the column. -/
def round (limits : Limits) (low : Lowered) : Lower Lowered := do
  let own := (← get).name
  let chosen ← ofExcept (pickFactor limits.target low.constraints)
  let column := nextColumn limits low.rules chosen
  let variableId ← build (.input column)
  let roots ← build (.substitute (low.constraints.map Circuit.id) chosen.id ⟨own, variableId⟩)
  let constraintId ← build (.sub (.circuit ⟨own, variableId⟩) (.circuit chosen.handle))
  let constraint ← circuit constraintId
  let rule ← ofExcept (checkedRule limits.target column constraint)
  let constraints ← roots.mapM fun root => circuit root.id
  return ⟨constraints, low.rules.push rule⟩

/-- Rounds until no constraint exceeds the target, at most as many as given. -/
def rounds (limits : Limits) : Nat → Lowered → Lower Lowered
  | 0, low => pure low
  | n + 1, low =>
    if maxDegree low.constraints ≤ limits.target then pure low
    else do
      let low ← round limits low
      rounds limits n low

/-- Lowers one bucket, whose first constraint belongs to the arena at hand. Every round takes one
operation out of the constraints' reach, so there are no more rounds than nodes, but for one that
constraints of other arenas may add. -/
def bucket (limits : Limits) (constraints : List Circuit) : Lower Lowered := do
  let size := (← get).size
  rounds limits (size + 1) ⟨constraints, #[]⟩

end Lower

end AirCompiler
