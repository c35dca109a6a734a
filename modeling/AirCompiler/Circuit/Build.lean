import AirCompiler.Circuit.Arena

/-!
# Building circuits

Sums, differences, products and powers of circuits and values. All of them come down to `Build.leaf`
and `Build.combine`, which intern their result. A step that fails leaves behind the nodes interned
before it.
-/

namespace AirCompiler

/-- Why a circuit cannot be built. -/
inductive BuildError where
  /-- An operand belongs to another arena. -/
  | foreignCircuit
  /-- An operand of the given kind is no value of a field. -/
  | unsupported (kind : String)
  /-- An exponent below one. -/
  | exponent (n : Int)
  /-- An id that names no node of the arena. -/
  | unknownNode
  deriving DecidableEq

/-- The text that reports a build error. -/
def BuildError.message : BuildError → String
  | .foreignCircuit => "Cannot combine circuits of different builders"
  | .unsupported kind => s!"Cannot convert {kind} to a circuit"
  | .exponent n => s!"Exponent must be a positive integer, got {n}"
  | .unknownNode => ""

inductive Operand where
  | circuit (h : Handle)
  | value (v : Value)
  deriving DecidableEq

/-- Construction in an arena. An error keeps the arena as it was left. -/
abbrev Build := EStateM BuildError Arena

namespace Build

/-- The node of a leaf. -/
def leaf (x : Leaf) : Build Nat := fun a =>
  let (i, a) := a.intern (.leaf x) (a.admits_leaf x)
  .ok i a

/-- The node of a constant. -/
def scalar (s : Scalar) : Build Nat := leaf (.constant s)

/-- The node of a cell. -/
def input (c : Cell) : Build Nat := leaf (.input c)

/-- The node of a challenge. -/
def challenge (index : Int) : Build Nat := leaf (.challenge index)

/-- The constant zero. -/
def zero : Build Nat := scalar (.base 0)

/-- The constant one. -/
def one : Build Nat := scalar (.base 1)

/-- The constant minus one. -/
def minusOne : Build Nat := scalar (.base .minusOne)

/-- The node of an operand: a circuit of this arena as it is, a value as a constant. -/
def operand : Operand → Build Nat
  | .circuit h => fun a => if h.owner = a.name then .ok h.id a else .error .foreignCircuit a
  | .value (.scalar s) => scalar s
  | .value (.integer n) => scalar (.base (.ofInt n))
  | .value (.foreign kind) => throw (.unsupported kind)

/-- The node of an operation on two nodes. Two constants are folded. As the operations are
commutative, a node with the operands swapped is taken if there is one. -/
def combine (op : Op) (l r : Nat) : Build Nat := fun a =>
  if h : l < a.nodes.size ∧ r < a.nodes.size then
    match hf : (Label.binary op l r).foldIn a.nodes with
    | some s => scalar s a
    | none =>
      match hs : a.find? (.binary op r l) with
      | some i => .ok i (a.touch i)
      | none =>
        let (i, a) :=
          a.intern (.binary op l r) ⟨by simp only [Label.rank, Arena.size]; omega, hf, fun _ => hs⟩
        .ok i a
  else .error .unknownNode a

/-- The operation on two operands, taken as nodes from left to right. -/
def binop (op : Op) (x y : Operand) : Build Nat := do
  let l ← operand x
  let r ← operand y
  combine op l r

/-- The negative of a node: minus one times the node. -/
def neg (i : Nat) : Build Nat := do
  let m ← minusOne
  combine .mul m i

/-- The difference of two nodes: the first plus the negative of the second. -/
def difference (l r : Nat) : Build Nat := do
  let n ← neg r
  combine .add l n

/-- The difference of two operands, taken as nodes from left to right. -/
def sub (x y : Operand) : Build Nat := do
  let l ← operand x
  let r ← operand y
  difference l r

/-- `result` times the `n`-th power of node `i`, one factor at a time. -/
def timesPower (i : Nat) : Nat → Nat → Build Nat
  | 0, result => pure result
  | n + 1, result => do
    let next ← combine .mul result i
    timesPower i n next

/-- The power of a node, of an exponent from one on. -/
def pow (i : Nat) (e : Int) : Build Nat :=
  if e < 1 then throw (.exponent e) else timesPower i (e - 1).toNat i

/-- Adds or multiplies operands one by one to a node. -/
def accumulate (op : Op) (start : Nat) (xs : List Operand) : Build Nat :=
  xs.foldlM (fun acc x => do combine op acc (← operand x)) start

def sum (xs : List Operand) : Build Nat := do
  let start ← zero
  accumulate .add start xs

def product (xs : List Operand) : Build Nat := do
  let start ← one
  accumulate .mul start xs

end Build

end AirCompiler
