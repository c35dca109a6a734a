import AirCompiler.Field.Scalar

/-!
# Nodes of a circuit

A circuit is a directed acyclic graph of sums and products over four kinds of leaves: constants of
the base field and of the extension, cells of the current and the next row of two tables, and
challenges. A node names its children by their ids.
-/

namespace AirCompiler

/-- The row of a table that a constraint looks at, or the one after it. -/
inductive Row where
  | current
  | next
  deriving DecidableEq

/-- The two tables: main columns hold base elements, auxiliary columns extension elements. -/
inductive Table where
  | main
  | aux
  deriving DecidableEq

def Row.name : Row → String
  | .current => "current"
  | .next => "next"

def Table.name : Table → String
  | .main => "main"
  | .aux => "aux"

/-- One cell of the current or the next row of a table. -/
@[ext] structure Cell where
  row : Row
  table : Table
  column : Int
  deriving DecidableEq

def Cell.text (c : Cell) : String := s!"{c.row.name}_{c.table.name}_row[{c.column}]"

/-- The two operations. Both are commutative. -/
inductive Op where
  | add
  | mul
  deriving DecidableEq

/-- The operation on scalars. -/
def Op.apply : Op → Scalar → Scalar → Scalar
  | .add, x, y => x + y
  | .mul, x, y => x * y

/-- The degree of the operation's result, for operands of the given degrees. -/
def Op.degree : Op → Nat → Nat → Nat
  | .add, d, e => max d e
  | .mul, d, e => d + e

/-- The sign of the operation. -/
def Op.symbol : Op → String
  | .add => "+"
  | .mul => "*"

/-- A leaf of a circuit. -/
inductive Leaf where
  | constant (s : Scalar)
  | input (c : Cell)
  | challenge (index : Int)
  deriving DecidableEq

namespace Leaf

/-- The degree of a leaf as a polynomial: a constant has none, a cell and a challenge are linear. -/
def degree : Leaf → Nat
  | .constant _ => 0
  | .input _ => 1
  | .challenge _ => 1

/-- Whether the leaf takes its values in the base field. -/
def isBase : Leaf → Bool
  | .constant s => s.isBase
  | .input c => c.table = .main
  | .challenge _ => false

def text : Leaf → String
  | .constant s => s.text
  | .input c => c.text
  | .challenge i => s!"challenges[{i}]"

end Leaf

/-- What a node is: a leaf, or an operation on two nodes named by id. -/
inductive Label where
  | leaf (x : Leaf)
  | binary (op : Op) (lhs rhs : Nat)
  deriving DecidableEq

namespace Label

/-- One more than the largest child id, and zero for a leaf. A label may stand at any id from its
rank on. -/
def rank : Label → Nat
  | .leaf _ => 0
  | .binary _ l r => max l r + 1

/-- The ids of the operands, left one first. -/
def children : Label → List Nat
  | .leaf _ => []
  | .binary _ l r => [l, r]

/-- The value of a constant. -/
def constant? : Label → Option Scalar
  | .leaf (.constant s) => some s
  | _ => none

/-- Whether the label is an operation. -/
def isBinary : Label → Bool
  | .leaf _ => false
  | .binary .. => true

/-- The label with the operands of its operation in the other order. -/
def swap : Label → Label
  | .leaf x => .leaf x
  | .binary op l r => .binary op r l

/-- Integers that tell the label from all others; labels are looked up by them. -/
def key : Label → List Int
  | .leaf (.constant (.base a)) => [0, a.val]
  | .leaf (.constant (.ext x)) => [1, x.c0.val, x.c1.val, x.c2.val]
  | .leaf (.input ⟨.current, .main, column⟩) => [2, column]
  | .leaf (.input ⟨.current, .aux, column⟩) => [3, column]
  | .leaf (.input ⟨.next, .main, column⟩) => [4, column]
  | .leaf (.input ⟨.next, .aux, column⟩) => [5, column]
  | .leaf (.challenge i) => [6, i]
  | .binary .add l r => [7, l, r]
  | .binary .mul l r => [8, l, r]

theorem key_injective {l l' : Label} (h : l.key = l'.key) : l = l' := by
  unfold key at h
  split at h <;> split at h <;>
    simp_all only [List.cons.injEq, Int.natCast_inj, leaf.injEq, Leaf.constant.injEq,
      Scalar.base.injEq, Scalar.ext.injEq, Base.ext_iff, Ext.ext_iff, reduceCtorEq, Int.reduceEq,
      true_and, false_and, and_self]

end Label

/-- A node: its id, its label, the degree and the base flag of the expression below it, and how
often construction led to it. -/
structure Node where
  id : Nat
  label : Label
  degree : Nat
  isBase : Bool
  refs : Nat
  deriving DecidableEq

/-- The node, led to once more. -/
def Node.touch (n : Node) : Node := { n with refs := n.refs + 1 }

@[simp] theorem Node.label_touch (n : Node) : n.touch.label = n.label := rfl

namespace Label

/-- The degree of a label whose operands stand among the nodes. -/
def degreeIn (nodes : Array Node) : Label → Nat
  | .leaf x => x.degree
  | .binary op l r =>
    op.degree ((nodes[l]?.map Node.degree).getD 0) ((nodes[r]?.map Node.degree).getD 0)

/-- The base flag of a label whose operands stand among the nodes. -/
def isBaseIn (nodes : Array Node) : Label → Bool
  | .leaf x => x.isBase
  | .binary _ l r =>
    (nodes[l]?.map Node.isBase).getD false && (nodes[r]?.map Node.isBase).getD false

/-- The constant that a label comes to, if it is an operation on two constants among the nodes. -/
def foldIn (nodes : Array Node) : Label → Option Scalar
  | .leaf _ => none
  | .binary op l r => do
    let x ← nodes[l]?.bind fun n => n.label.constant?
    let y ← nodes[r]?.bind fun n => n.label.constant?
    return op.apply x y

/-- Appending a node changes nothing for labels whose operands stand before it. -/
theorem in_push {nodes : Array Node} {l : Label} (h : l.rank ≤ nodes.size) (n : Node) :
    l.degreeIn (nodes.push n) = l.degreeIn nodes ∧ l.isBaseIn (nodes.push n) = l.isBaseIn nodes ∧
      l.foldIn (nodes.push n) = l.foldIn nodes := by
  cases l with
  | leaf x => exact ⟨rfl, rfl, rfl⟩
  | binary op l r =>
    have hl : (nodes.push n)[l]? = nodes[l]? := by
      rw [Array.getElem?_push, if_neg (by simp only [rank] at h; omega)]
    have hr : (nodes.push n)[r]? = nodes[r]? := by
      rw [Array.getElem?_push, if_neg (by simp only [rank] at h; omega)]
    simp only [degreeIn, isBaseIn, foldIn, hl, hr, and_self]

/-- Counting a construction changes nothing for labels. -/
theorem in_modify_touch (nodes : Array Node) (i : Nat) (l : Label) :
    l.degreeIn (nodes.modify i .touch) = l.degreeIn nodes ∧
      l.isBaseIn (nodes.modify i .touch) = l.isBaseIn nodes ∧
      l.foldIn (nodes.modify i .touch) = l.foldIn nodes := by
  have hd : ∀ j : Nat, (nodes.modify i .touch)[j]?.map Node.degree = nodes[j]?.map Node.degree := by
    intro j
    rw [Array.getElem?_modify]
    split
    · cases nodes[j]? <;> rfl
    · rfl
  have hb : ∀ j : Nat, (nodes.modify i .touch)[j]?.map Node.isBase = nodes[j]?.map Node.isBase := by
    intro j
    rw [Array.getElem?_modify]
    split
    · cases nodes[j]? <;> rfl
    · rfl
  have hc : ∀ j : Nat, ((nodes.modify i .touch)[j]?.bind fun n => n.label.constant?) =
      nodes[j]?.bind fun n => n.label.constant? := by
    intro j
    rw [Array.getElem?_modify]
    split
    · cases nodes[j]? <;> rfl
    · rfl
  cases l with
  | leaf x => exact ⟨rfl, rfl, rfl⟩
  | binary op l r => simp only [degreeIn, isBaseIn, foldIn, hd, hb, hc, and_self]

end Label

/-- What a node at place `i` has to be: its id is the place, its degree and base flag are those of
its label, and it is no operation on two constants. -/
structure Node.Fits (n : Node) (nodes : Array Node) (i : Nat) : Prop where
  id_eq : n.id = i
  degree_eq : n.degree = n.label.degreeIn nodes
  isBase_eq : n.isBase = n.label.isBaseIn nodes
  unfolded : n.label.foldIn nodes = none

end AirCompiler
