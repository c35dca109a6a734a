import AirCompiler.Circuit.Build
import AirCompiler.Circuit.Traversal
import Std.Data.TreeMap

/-!
# Substitution

Rebuilds circuits with one node replaced by another circuit. A node below which nothing is replaced
keeps its id. Nodes are rebuilt children first, root after root, and what was rebuilt for one root
serves the next; so the ids of new nodes follow from the order of the roots alone.
-/

namespace AirCompiler

/-- What each id was rebuilt into. -/
abbrev Rebuilt := Std.TreeMap Nat Handle

namespace Build

/-- Rebuilds one node whose children are rebuilt. -/
def rebuild (own : Nat) (done : Rebuilt) (n : Node) : Build Rebuilt :=
  match n.label with
  | .leaf _ => pure (done.insert n.id ⟨own, n.id⟩)
  | .binary op l r =>
    match done[l]?, done[r]? with
    | some x, some y =>
      if x.id = l ∧ y.id = r then pure (done.insert n.id ⟨own, n.id⟩)
      else do
        let i ← binop op (.circuit x) (.circuit y)
        return done.insert n.id ⟨own, i⟩
    | _, _ => throw .unknownNode

/-- Rebuilds everything below one root. -/
def rebuildRoot (own : Nat) (done : Rebuilt) (root : Nat) : Build Rebuilt := fun a =>
  if done.contains root then .ok done a
  else
    match a.node? root with
    | none => .error .unknownNode a
    | some n => ((a.postorder done.contains n).foldlM (rebuild own) done : Build Rebuilt) a

/-- The rebuilding that replaces one id. A negative id names no node, so nothing is replaced. -/
def replacing (target : Int) (replacement : Handle) : Rebuilt :=
  match target with
  | .ofNat n => (∅ : Rebuilt).insert n replacement
  | .negSucc _ => ∅

/-- The roots with every occurrence of the target replaced. -/
def substitute (roots : List Nat) (target : Int) (replacement : Handle) :
    Build (List Handle) := fun a =>
  let own := a.name
  let rebuildAll : Build (List Handle) := do
    let done ← roots.foldlM (rebuildRoot own) (replacing target replacement)
    return roots.map fun r => done[r]?.getD ⟨own, r⟩
  rebuildAll a

end Build

end AirCompiler
