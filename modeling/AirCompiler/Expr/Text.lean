import AirCompiler.Expr.Basic

/-!
# Text of expressions

Expressions as source text, every operation in parentheses. With temporaries, a subexpression nested
as deep as `maxNesting` is assigned to a name of its own, and the text goes on with that name. The
text is put together bottom up, on an explicit list of open tasks.
-/

namespace AirCompiler

/-- The depth of parentheses at which a subexpression goes to a temporary. -/
def maxNesting : Nat := 32

namespace Expr

/-- The name of a row. Code for a single row does not tell the current row from the next. -/
def rowName (dual : Bool) (row : Row) (table : Table) : String :=
  if dual then s!"{row.name}_{table.name}_row" else s!"{table.name}_row"

def leafText (dual : Bool) : Leaf → String
  | .constant s => s.source
  | .input c => s!"{rowName dual c.row c.table}[{c.column}]"
  | .challenge i => s!"challenges[{i}]"

def sharedName (id : Int) : String := s!"node_{id}"

def operationText (op : Op) (x y : String) : String := s!"({x} {op.symbol} {y})"

/-- A text and the depth of its parentheses, with temporaries as leaves. -/
structure Piece where
  text : String
  depth : Nat

def temporaryName (index : Nat) : String := s!"tmp_{index}"

/-- The line that assigns a temporary. -/
def assignment (index : Nat) (text : String) : String := s!"{temporaryName index} = {text}"

/-- The text of an operation, nested one deeper than its operands. -/
def join (op : Op) (x y : Piece) : Piece :=
  ⟨operationText op x.text y.text, max x.depth y.depth + 1⟩

/-- Puts an operation's text in place, or into a temporary once it is nested too deep. Without a
list of temporaries, everything stays in place. -/
def place (p : Piece) : Option (Array String) → Piece × Option (Array String)
  | none => (p, none)
  | some lines =>
    if maxNesting ≤ p.depth then
      (⟨temporaryName lines.size, 0⟩, some (lines.push (assignment lines.size p.text)))
    else (p, some lines)

/-- An open task: an expression to descend into, or an operation on the two latest pieces. -/
inductive TextTask where
  | visit (e : Expr)
  | join (op : Op)

/-- The number of tasks that an expression opens. -/
def work : Expr → Nat
  | .leaf _ | .shared _ => 1
  | .operation _ l r => l.work + r.work + 2

/-- The number of tasks that several tasks open. -/
def TextTask.total : List TextTask → Nat
  | [] => 0
  | .visit e :: tasks => e.work + total tasks
  | .join _ :: tasks => total tasks + 1

/-- Works through the open tasks, with the pieces found so far, latest first. There is no result if
an operation lacks its operands. -/
def textTasks (dual : Bool) (tasks : List TextTask) (pieces : List Piece)
    (temporaries : Option (Array String)) : Option (Piece × Option (Array String)) :=
  match tasks, pieces with
  | [], [p] => some (p, temporaries)
  | [], _ => none
  | .join op :: tasks, y :: x :: pieces =>
    let (p, temporaries) := place (join op x y) temporaries
    textTasks dual tasks (p :: pieces) temporaries
  | .join _ :: _, _ => none
  | .visit (.leaf x) :: tasks, pieces =>
    textTasks dual tasks (⟨leafText dual x, 0⟩ :: pieces) temporaries
  | .visit (.shared id) :: tasks, pieces =>
    textTasks dual tasks (⟨sharedName id, 0⟩ :: pieces) temporaries
  | .visit (.operation op l r) :: tasks, pieces =>
    textTasks dual (.visit l :: .visit r :: .join op :: tasks) pieces temporaries
termination_by TextTask.total tasks
decreasing_by all_goals simp only [TextTask.total, work]; omega

/-- The text of an expression, with the assignments to temporaries appended to those given. -/
def render (dual : Bool) (e : Expr) (temporaries : Option (Array String)) :
    String × Option (Array String) :=
  match textTasks dual [.visit e] [] temporaries with
  | some (p, temporaries) => (p.text, temporaries)
  | none => ("", temporaries)

/-- The text of an expression, with all operations in place. -/
def text (dual : Bool) (e : Expr) : String := (e.render dual none).1

/-- The text with temporaries, and the assignments that have to run before it. -/
def textWith (dual : Bool) (e : Expr) (temporaries : Array String) : String × Array String :=
  let (text, temporaries) := e.render dual (some temporaries)
  (text, temporaries.getD #[])

end Expr

end AirCompiler
