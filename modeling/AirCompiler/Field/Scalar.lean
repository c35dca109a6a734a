import AirCompiler.Field.Ext

/-!
# Scalars

A scalar is an element of the base field or of the extension. An operation on two base elements
stays in the base field; as soon as one operand is an extension element, the other is lifted. An
operand may also be a plain integer.
-/

namespace AirCompiler

/-- An element of the base field or of its extension. -/
inductive Scalar where
  | base (a : Base)
  | ext (x : Ext)
  deriving DecidableEq

namespace Scalar

instance : Inhabited Scalar := ⟨.base 0⟩

/-- The scalar as an extension element. -/
def lift : Scalar → Ext
  | .base a => .ofBase a
  | .ext x => x

/-- Whether the scalar was given as a base element. -/
def isBase : Scalar → Bool
  | .base _ => true
  | .ext _ => false

instance : Add Scalar where
  add
    | .base a, .base b => .base (a + b)
    | x, y => .ext (x.lift + y.lift)

instance : Sub Scalar where
  sub
    | .base a, .base b => .base (a - b)
    | x, y => .ext (x.lift - y.lift)

instance : Mul Scalar where
  mul
    | .base a, .base b => .base (a * b)
    | x, y => .ext (x.lift * y.lift)

instance : Neg Scalar where
  neg
    | .base a => .base (-a)
    | .ext x => .ext (-x)

/-- The power of an integer exponent. -/
def pow (s : Scalar) (e : Int) : Except FieldError Scalar :=
  match s with
  | .base a => .base <$> a.pow e
  | .ext x => .ext <$> x.pow e

/-- The inverse of a base element, and nothing for an extension element. -/
def inverse? : Scalar → Option (Except FieldError Base)
  | .base a => some a.inverse
  | .ext _ => none

def isZero : Scalar → Bool
  | .base a => a.isZero
  | .ext x => x.isZero

/-- The base element that the scalar stands for. -/
def toBase : Scalar → Except FieldError Base
  | .base a => .ok a
  | .ext x => x.toBase

/-- The plain text. -/
def text : Scalar → String
  | .base a => a.text
  | .ext x => x.text

/-- The scalar as it stands in generated source. -/
def source : Scalar → String
  | .base a => a.source
  | .ext x => x.source

end Scalar

/-- A value offered as an operand: a scalar, a plain integer, or a value of no field, of which only
the description of its kind is known. -/
inductive Value where
  | scalar (s : Scalar)
  | integer (n : Int)
  | foreign (kind : String)
  deriving DecidableEq

/-- The operations on two operands. -/
inductive Arithmetic where
  | add
  | sub
  | mul
  deriving DecidableEq

/-- The operation on elements of one kind. -/
def Arithmetic.on {α : Type} [Add α] [Sub α] [Mul α] : Arithmetic → α → α → α
  | .add, x, y => x + y
  | .sub, x, y => x - y
  | .mul, x, y => x * y

namespace Value

/-- The scalar that the value stands for; an integer stands for its class in the base field. -/
def toScalar? : Value → Option Scalar
  | .scalar s => some s
  | .integer n => some (.base (.ofInt n))
  | .foreign _ => none

/-- An operation on two operands, one of them a field element. A base element and an integer are
combined as integers, and the result is reduced; next to an extension element, an integer is
lifted. -/
def combine? (op : Arithmetic) : Value → Value → Option Scalar
  | .scalar s, .scalar t => some (op.on s t)
  | .scalar (.base a), .integer n => some (.base (.ofInt (op.on a.val n)))
  | .integer n, .scalar (.base a) => some (.base (.ofInt (op.on n a.val)))
  | .scalar (.ext x), .integer n => some (.ext (op.on x (.ofBase (.ofInt n))))
  | .integer n, .scalar (.ext x) => some (.ext (op.on (.ofBase (.ofInt n)) x))
  | _, _ => none

/-- Whether two values stand for the same element of the extension. Two integers are compared as
they are, and a foreign value is equal to nothing. -/
def same : Value → Value → Bool
  | .integer m, .integer n => m == n
  | x, y =>
    match x.toScalar?, y.toScalar? with
    | some s, some t => s.lift == t.lift
    | _, _ => false

end Value

end AirCompiler
