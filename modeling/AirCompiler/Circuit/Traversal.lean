import AirCompiler.Circuit.Arena
import Std.Data.TreeSet

/-!
# Traversals

Two ways through a circuit, both on an explicit list of open tasks, so that the depth of a circuit
is not bounded by a call stack. `Arena.foldM` visits the unfolded tree, operands first, with visits
in a monad; `Arena.fold` is the case of visits that only compute a value. `Arena.postorder` lists
every node once, each after its children.
-/

namespace AirCompiler

/-- What a fold does at each node. At a node that is bound it takes the value found there and does
not descend. -/
structure VisitorM (m : Type → Type) (α : Type) where
  bound : Node → m (Option α)
  leaf : Node → Leaf → m α
  operation : Node → Op → α → α → m α

/-- What a fold without effects makes of each label. At a bound node it takes the given value and
does not descend. -/
structure Visitor (α : Type) where
  bound : Node → Option α
  leaf : Leaf → α
  operation : Op → α → α → α

/-- The visitor, with visits that have no effects. -/
def Visitor.effectless {α : Type} (v : Visitor α) : VisitorM Id α where
  bound := v.bound
  leaf _ := v.leaf
  operation _ := v.operation

/-- A bound on the tasks that a node of the given rank opens: each descent opens three of smaller
rank. -/
def work : Nat → Nat
  | 0 => 1
  | n + 1 => 4 * work n

theorem work_pos (n : Nat) : 0 < work n := by
  induction n with
  | zero => decide
  | succ n ih => rw [work]; omega

theorem work_le_work {m n : Nat} (h : m ≤ n) : work m ≤ work n := by
  induction h with
  | refl => exact Nat.le_refl _
  | step _ ih => rw [work]; omega

/-- Two tasks below an operation and the operation itself are less work than the operation's
node. -/
theorem work_children_lt {l r x y : Nat} (hx : x ≤ l) (hy : y ≤ r) :
    work x + (work y + 1) < work (max l r + 1) := by
  have h₁ : work x ≤ work (max l r) := work_le_work (by omega)
  have h₂ : work y ≤ work (max l r) := work_le_work (by omega)
  have h₃ := work_pos (max l r)
  rw [work]
  omega

/-- An open task of a fold: a node to descend into, or the operation of a node on the two latest
values. -/
inductive FoldTask where
  | visit (n : Node)
  | apply (n : Node) (op : Op)

/-- A bound on the work that a task opens. -/
def FoldTask.weight : FoldTask → Nat
  | .visit n => work n.label.rank
  | .apply _ _ => 1

/-- The bounds of several tasks together. -/
def FoldTask.total : List FoldTask → Nat
  | [] => 0
  | t :: ts => t.weight + total ts

namespace Arena

set_option linter.unusedVariables false in
/-- Works through the open tasks, with the values found so far, latest first. There is no result if
a child's id names no node of the arena. -/
@[specialize] def foldTasksM {m : Type → Type} [Monad m] {α : Type} (a : Arena) (v : VisitorM m α)
    (tasks : List FoldTask) (values : List α) : OptionT m α :=
  match tasks, values with
  | [], [x] => pure x
  | [], _ => failure
  | .apply n op :: tasks, y :: x :: values => do
    let z ← OptionT.lift (v.operation n op x y)
    a.foldTasksM v tasks (z :: values)
  | .apply _ _ :: _, _ => failure
  | .visit n :: tasks, values => do
    match ← OptionT.lift (v.bound n) with
    | some x => a.foldTasksM v tasks (x :: values)
    | none =>
      match hn : n.label with
      | .leaf x =>
        let y ← OptionT.lift (v.leaf n x)
        a.foldTasksM v tasks (y :: values)
      | .binary op l r =>
        match hl : a.node? l, hr : a.node? r with
        | some nl, some nr => a.foldTasksM v (.visit nl :: .visit nr :: .apply n op :: tasks) values
        | _, _ => failure
termination_by FoldTask.total tasks
decreasing_by
  · simp only [FoldTask.total, FoldTask.weight]
    omega
  · have := work_pos n.label.rank
    simp only [FoldTask.total, FoldTask.weight]
    omega
  · have := work_pos n.label.rank
    simp only [FoldTask.total, FoldTask.weight]
    omega
  · have := work_children_lt (rank_le_of_node? hl) (rank_le_of_node? hr)
    have hk : n.label.rank = max l r + 1 := by rw [hn]; rfl
    simp only [FoldTask.total, FoldTask.weight, hk]
    omega

/-- Visits a node bottom up, left operand first. The children are looked up in the arena, which need
not be the one that the node stands in. -/
@[inline] def foldM {m : Type → Type} [Monad m] {α : Type} (a : Arena) (v : VisitorM m α)
    (n : Node) : OptionT m α :=
  a.foldTasksM v [.visit n] []

/-- The value of a node, found bottom up, left operand first. -/
def fold {α : Type} (a : Arena) (v : Visitor α) (n : Node) : Option α :=
  (a.foldM v.effectless n).run.run

end Arena

/-- An open task of a walk: a node to descend into, or a node all of whose children are listed. -/
inductive WalkTask where
  | enter (n : Node)
  | leave (n : Node)

/-- A bound on the work that a task opens. -/
def WalkTask.weight : WalkTask → Nat
  | .enter n => work n.label.rank
  | .leave _ => 1

/-- The bounds of several tasks together. -/
def WalkTask.total : List WalkTask → Nat
  | [] => 0
  | t :: ts => t.weight + total ts

/-- The nodes listed by a walk so far, and their ids. -/
structure Walked where
  order : Array Node
  seen : Std.TreeSet Nat

/-- Nothing listed yet. -/
def Walked.empty : Walked := ⟨#[], ∅⟩

/-- Lists one more node. -/
def Walked.push (w : Walked) (n : Node) : Walked := ⟨w.order.push n, w.seen.insert n.id⟩

namespace Arena

set_option linter.unusedVariables false in
/-- Works through the open tasks of a walk that leaves out the nodes whose ids are to be skipped. -/
def walkTasks (a : Arena) (skip : Nat → Bool) (tasks : List WalkTask) (done : Walked) : Walked :=
  match tasks with
  | [] => done
  | .leave n :: tasks =>
    a.walkTasks skip tasks (if done.seen.contains n.id then done else done.push n)
  | .enter n :: tasks =>
    if skip n.id || done.seen.contains n.id then a.walkTasks skip tasks done
    else
      match hn : n.label with
      | .leaf _ => a.walkTasks skip tasks (done.push n)
      | .binary _ l r =>
        match hl : a.node? l, hr : a.node? r with
        | some nl, some nr => a.walkTasks skip (.enter nl :: .enter nr :: .leave n :: tasks) done
        | _, _ => a.walkTasks skip tasks done
termination_by WalkTask.total tasks
decreasing_by
  · simp only [WalkTask.total, WalkTask.weight]
    omega
  · have := work_pos n.label.rank
    simp only [WalkTask.total, WalkTask.weight]
    omega
  · have := work_pos n.label.rank
    simp only [WalkTask.total, WalkTask.weight]
    omega
  · have := work_children_lt (rank_le_of_node? hl) (rank_le_of_node? hr)
    have hk : n.label.rank = max l r + 1 := by rw [hn]; rfl
    simp only [WalkTask.total, WalkTask.weight, hk]
    omega
  · have := work_pos n.label.rank
    simp only [WalkTask.total, WalkTask.weight]
    omega

/-- Every node below a root that can be reached without entering a skipped one, each once, children
first and the left operand's side first. -/
def postorder (a : Arena) (skip : Nat → Bool) (root : Node) : List Node :=
  (a.walkTasks skip [.enter root] .empty).order.toList

end Arena

namespace Circuit

/-- Every node of the circuit once, children first. -/
def walk (c : Circuit) : List Node := c.arena.postorder (fun _ => false) c.node

/-- Whether some leaf of the circuit is a cell of the next row. -/
def usesNextRow (c : Circuit) : Bool :=
  c.walk.any fun n =>
    match n.label with
    | .leaf (.input cell) => cell.row = .next
    | _ => false

/-- Operands in parentheses, joined by the sign. -/
def textVisitor : Visitor String where
  bound _ := none
  leaf := Leaf.text
  operation op x y := s!"({x}) {op.symbol} ({y})"

def text (c : Circuit) : String := (c.arena.fold textVisitor c.node).getD ""

/-- The id and the text, as shown to a reader. -/
def description (c : Circuit) : String := s!"Circuit(id={c.id}, {c.text})"

end Circuit

end AirCompiler
