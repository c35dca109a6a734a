import AirCompiler.Expr.Basic
import AirCompiler.Sharing.Plan

/-!
# Evaluation code

The evaluation code of a bucket: bindings of the shared nodes in the order of the sharing plan, then
one output for each constraint, those over the base field first. The outputs keep the order of the
bucket within each of the two groups, and so do the reported degrees.
-/

namespace AirCompiler

/-- An output of evaluation code, with the degree of its constraint. -/
structure Output where
  expr : Expr
  degree : Nat

structure BucketEvaluation where
  role : Role
  bindings : List Binding
  base : List Output
  ext : List Output

namespace BucketEvaluation

/-- No code, for a bucket without constraints. -/
def empty (role : Role) : BucketEvaluation := ⟨role, [], [], []⟩

/-- The outputs in the order in which they are reported. -/
def outputs (b : BucketEvaluation) : List Output := b.base ++ b.ext

/-- The number of constraints. -/
def count (b : BucketEvaluation) : Nat := b.base.length + b.ext.length

/-- The degrees of the constraints, in the order of the outputs. -/
def degrees (b : BucketEvaluation) : List Nat := b.outputs.map Output.degree

/-- Bounds on the quotients' degrees, for interpolants of the given degree and a trace of the given
height. -/
def degreeBounds (b : BucketEvaluation) (interpolantDegree height : Int) : List Int :=
  b.degrees.map fun (d : Nat) => interpolantDegree * d - b.role.zerofierDegree height

/-- The values of all outputs, as extension elements. -/
def eval (b : BucketEvaluation) (rows : Rows) : Except EvalError (List Ext) :=
  Expr.evalAll rows b.bindings (b.outputs.map Output.expr)

/-- The expression of a node, with references to the nodes in scope. -/
def exprIn (a : Arena) (scope : Scope) (n : Node) : Except CompileError Expr :=
  match a.expr? (fun id => scope.contains id) n with
  | some e => .ok e
  | none => .error .unknownNode

/-- The bindings made so far, and the nodes that they bind. -/
structure Bound where
  scope : Scope
  bindings : Array Binding

/-- Binds one more node of the plan. -/
def bindNode (a : Arena) (b : Bound) (id : Nat) : Except CompileError Bound :=
  match a.node? id with
  | none => .error .unknownNode
  | some n => do
    let expr ← exprIn a b.scope n
    let scope ← b.scope.declare id
    return ⟨scope, b.bindings.push ⟨id, expr, n.isBase⟩⟩

/-- The output of one constraint. -/
def output (a : Arena) (scope : Scope) (c : Circuit) : Except CompileError (Bool × Output) := do
  let expr ← exprIn a scope c.node
  return (c.isBase, ⟨expr, c.degree⟩)

/-- The evaluation code of a list of constraints. -/
def ofCircuits (role : Role) (cs : List Circuit) : Except CompileError BucketEvaluation :=
  match cs with
  | [] => .ok (empty role)
  | first :: _ => do
    let plan ← Plan.ofCircuits cs
    let bound ← plan.order.foldlM (bindNode first.arena) ⟨.empty, #[]⟩
    let outputs ← cs.mapM (output first.arena bound.scope)
    return {
      role := role
      bindings := bound.bindings.toList
      base := (outputs.filter fun o => o.1).map Prod.snd
      ext := (outputs.filter fun o => !o.1).map Prod.snd }

end BucketEvaluation

/-- The evaluation code of all four buckets. -/
abbrev Evaluation := Buckets BucketEvaluation

namespace Evaluation

/-- The evaluation code of four lists of constraints, in the order of the roles. -/
def ofCircuits (cs : Buckets (List Circuit)) : Except CompileError Evaluation := do
  let initial ← BucketEvaluation.ofCircuits .initial cs.initial
  let consistency ← BucketEvaluation.ofCircuits .consistency cs.consistency
  let transition ← BucketEvaluation.ofCircuits .transition cs.transition
  let terminal ← BucketEvaluation.ofCircuits .terminal cs.terminal
  return ⟨initial, consistency, transition, terminal⟩

/-- The number of constraints. -/
def count (e : Evaluation) : Nat :=
  e.initial.count + e.consistency.count + e.transition.count + e.terminal.count

/-- The values of one bucket. Only a role that looks at two rows is shown the next one. -/
def evalBucket (e : Evaluation) (rows : Rows) (role : Role) : Except EvalError (List Ext) :=
  (e.get role).eval (if role.isDualRow then rows else rows.withoutNext)

/-- The values of all constraints, bucket after bucket. -/
def evalAll (e : Evaluation) (rows : Rows) : Except EvalError (List Ext) := do
  let values ← Role.all.mapM (e.evalBucket rows)
  return values.flatten

end Evaluation

end AirCompiler
