import AirCompiler.Circuit.Traversal
import Std.Data.TreeMap

/-!
# Expressions

The target-independent form of evaluation code: leaves of circuits, references to shared nodes, sums
and products. A node unfolds into an expression; at a node in scope the unfolding stops and refers
to it. A reference is an integer, whether or not some arena has a node of that id.

Expressions are evaluated against two rows of both tables, the challenges, and the values of shared
nodes. A row is indexed from either end: `0` is its first entry, `-1` its last. Operands are
evaluated left to right, and the first failure is the failure of the whole.
-/

namespace AirCompiler

/-- An expression over leaves and shared nodes. -/
inductive Expr where
  | leaf (x : Leaf)
  | shared (id : Int)
  | operation (op : Op) (lhs rhs : Expr)
  deriving DecidableEq

/-- A shared node, with the expression that it is bound to. -/
structure Binding where
  node : Int
  expr : Expr
  isBase : Bool

namespace Expr

/-- Unfolds nodes, up to the bound ones. -/
def visitor (bound : Nat → Bool) : Visitor Expr where
  bound n := if bound n.id then some (.shared n.id) else none
  leaf := .leaf
  operation := .operation

end Expr

/-- The expression of a node whose children stand in the arena, with references to the bound
nodes. -/
def Arena.expr? (a : Arena) (bound : Nat → Bool) (n : Node) : Option Expr :=
  a.fold (Expr.visitor bound) n

/-- The fully unfolded expression of a circuit. -/
def Circuit.expr (c : Circuit) : Expr :=
  (c.arena.expr? (fun _ => false) c.node).getD (.shared c.id)

/-! ## Evaluation -/

/-- Why an expression has no value. -/
inductive EvalError where
  /-- An index beyond the entries of a row or of the challenges. -/
  | outOfRange
  /-- A shared node without a value. -/
  | unbound
  deriving DecidableEq

/-- The position that an index names in a sequence of the given length; a negative one counts from
the end. -/
def position? (length : Nat) (index : Int) : Option Nat :=
  let i := if index < 0 then index + length else index
  if 0 ≤ i ∧ i < length then some i.toNat else none

/-- The entry that an index names, from either end. -/
def itemAt? {α : Type} (xs : Array α) (index : Int) : Option α :=
  (position? xs.size index).bind (xs[·]?)

/-- The rows and challenges that constraints are evaluated on. -/
structure Rows where
  currentMain : Array Scalar
  currentAux : Array Scalar
  nextMain : Array Scalar
  nextAux : Array Scalar
  challenges : Array Scalar

namespace Rows

/-- No entries at all. -/
def empty : Rows := ⟨#[], #[], #[], #[], #[]⟩

def row (rows : Rows) : Row → Table → Array Scalar
  | .current, .main => rows.currentMain
  | .current, .aux => rows.currentAux
  | .next, .main => rows.nextMain
  | .next, .aux => rows.nextAux

def withoutNext (rows : Rows) : Rows := { rows with nextMain := #[], nextAux := #[] }

end Rows

/-- The values of shared nodes. -/
abbrev BoundValues := Std.TreeMap Int Scalar

/-- The value of a leaf. -/
def Leaf.eval (rows : Rows) : Leaf → Except EvalError Scalar
  | .constant s => .ok s
  | .input c => (itemAt? (rows.row c.row c.table) c.column).elim (.error .outOfRange) .ok
  | .challenge i => (itemAt? rows.challenges i).elim (.error .outOfRange) .ok

namespace Expr

def eval (rows : Rows) (bound : BoundValues) : Expr → Except EvalError Scalar
  | .leaf x => x.eval rows
  | .shared id => bound[id]?.elim (.error .unbound) .ok
  | .operation op l r => do
    let x ← l.eval rows bound
    let y ← r.eval rows bound
    return op.apply x y

/-- The value of an expression, as an extension element. -/
def evalLifted (rows : Rows) (bound : BoundValues) (e : Expr) : Except EvalError Ext :=
  Scalar.lift <$> e.eval rows bound

/-- Evaluates bindings in order, each with the values of those before it. -/
def bindAll (rows : Rows) (bindings : List Binding) (bound : BoundValues) :
    Except EvalError BoundValues :=
  bindings.foldlM (fun bound b => return bound.insert b.node (← b.expr.eval rows bound)) bound

/-- Evaluates bindings, then every output. -/
def evalAll (rows : Rows) (bindings : List Binding) (outputs : List Expr) :
    Except EvalError (List Ext) := do
  let bound ← bindAll rows bindings ∅
  outputs.mapM fun e => e.evalLifted rows bound

end Expr

end AirCompiler
