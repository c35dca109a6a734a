import AirCompiler.Circuit.Traversal
import AirCompiler.CompileError
import Std.Data.TreeMap
import Std.Data.TreeSet

/-!
# Sharing plans

Which operations of a list of circuits are evaluated once and reused, and in which order they are
bound.

The count of a node is the number of paths that lead to it from the roots, so a child's count is
never below that of a parent. Operations with a count above one are declared by decreasing count,
and within one count children first; then every operand of a declared operation is declared before
it.

Circuits of several arenas are told apart by their ids alone. That no two of them share an id is
checked first; afterwards all ids are looked up in the arena of the first circuit.

What is bound at a point of generated code is kept in a scope, in which a node is declared at most
once. Ids are arbitrary integers there; only an arena knows which of them are ids of nodes.
-/

namespace AirCompiler

/-! ## Scopes -/

/-- The ids of the nodes declared so far. -/
structure Scope where
  declared : Std.TreeSet Int

namespace Scope

/-- Nothing declared. -/
def empty : Scope := ⟨∅⟩

/-- Whether a node is declared. -/
def contains (s : Scope) (id : Int) : Bool := s.declared.contains id

/-- The number of declared nodes. -/
def size (s : Scope) : Nat := s.declared.size

/-- Declares one more node. -/
def declare (s : Scope) (id : Int) : Except CompileError Scope :=
  if s.contains id then .error (.declaredTwice id) else .ok ⟨s.declared.insert id⟩

end Scope

/-! ## Plans -/

/-- Path counts by node id. -/
abbrev Counts := Std.TreeMap Nat Nat

/-- The nodes to be bound, in order, and the counts that they were chosen by. -/
structure Plan where
  counts : Counts
  order : List Nat

namespace Plan

/-- Notes which arena an id was first met in. -/
def noteOwner (name : Nat) (owners : Std.TreeMap Nat Nat) (n : Node) :
    Except CompileError (Std.TreeMap Nat Nat) :=
  match owners[n.id]? with
  | none => .ok (owners.insert n.id name)
  | some owner => if owner = name then .ok owners else .error (.repeatedId n.id)

/-- Checks that no id belongs to nodes of two arenas. -/
def checkIds (cs : List Circuit) : Except CompileError Unit := do
  let _ ← cs.foldlM (fun owners c => c.walk.foldlM (noteOwner c.arena.name) owners) ∅

/-- The roots' own counts: every occurrence in the list counts one, all other reachable nodes
zero. -/
def rootCounts (cs : List Circuit) : Counts :=
  cs.foldl (fun counts c =>
    let counts := c.walk.foldl (fun counts n => counts.insertIfNew n.id 0) counts
    counts.insert c.id (counts.getD c.id 0 + 1)) ∅

/-- Adds a node's count to the counts of its operands. -/
def passDown (a : Arena) (counts : Counts) (id : Nat) : Except CompileError Counts :=
  match a.node? id with
  | none => .error .unknownNode
  | some n =>
    n.label.children.foldlM (fun counts child =>
      match counts[child]? with
      | none => .error .uncountedNode
      | some k => .ok (counts.insert child (k + counts.getD id 0))) counts

/-- The number of paths from the roots to every reachable node. Parents have larger ids than their
children, so counts are passed down by decreasing id. -/
def countPaths (cs : List Circuit) : Except CompileError Counts :=
  match cs with
  | [] => .ok ∅
  | first :: _ =>
    let counts := rootCounts cs
    counts.keys.reverse.foldlM (passDown first.arena) counts

/-- The counts above one, largest first. -/
def levels (counts : Counts) : List Nat :=
  let above := counts.values.filter fun k => 1 < k
  (above.foldl (fun set k => set.insert k) (∅ : Std.TreeSet Nat)).toList.reverse

/-- The nodes declared so far, in order. -/
structure Declared where
  scope : Scope
  order : Array Nat

/-- Declares one more node. -/
def Declared.add (d : Declared) (id : Nat) : Except CompileError Declared := do
  let scope ← d.scope.declare id
  return ⟨scope, d.order.push id⟩

set_option linter.unusedVariables false in
/-- Declares the operations of one count below a node, operands first. -/
def declareLevel (a : Arena) (counts : Counts) (level : Nat) (n : Node) (d : Declared) :
    Except CompileError Declared :=
  match hn : n.label with
  | .leaf _ => .ok d
  | .binary _ l r =>
    if d.scope.contains n.id then .ok d
    else
      match counts[n.id]? with
      | none => .error .uncountedNode
      | some k =>
        if level < k then .error (.notDeclared n.id k level)
        else
          match hl : a.node? l, hr : a.node? r with
          | some nl, some nr => do
            let d ← declareLevel a counts level nl d
            let d ← declareLevel a counts level nr d
            if k = level then d.add n.id else .ok d
          | _, _ => .error .unknownNode
termination_by n.label.rank
decreasing_by
  · have := Arena.rank_le_of_node? hl
    have hk : n.label.rank = max l r + 1 := by rw [hn]; rfl
    omega
  · have := Arena.rank_le_of_node? hr
    have hk : n.label.rank = max l r + 1 := by rw [hn]; rfl
    omega

def ofCircuits (cs : List Circuit) : Except CompileError Plan := do
  checkIds cs
  let counts ← countPaths cs
  match cs with
  | [] => return ⟨counts, []⟩
  | first :: _ =>
    let start : Declared := ⟨.empty, #[]⟩
    let d ← (levels counts).foldlM (fun d level =>
      cs.foldlM (fun d c => declareLevel first.arena counts level c.node d) d) start
    return ⟨counts, d.order.toList⟩

end Plan

end AirCompiler
