import AirCompiler.Field.Base

/-!
# The cubic extension

Elements `c0 + c1 x + c2 x²` over the base field with `x³ = x - 1`. Rows of the auxiliary table,
challenges and every evaluated constraint live here.
-/

namespace AirCompiler

/-- An element of the cubic extension, by its three coefficients. -/
@[ext] structure Ext where
  c0 : Base
  c1 : Base
  c2 : Base
  deriving DecidableEq

namespace Ext

instance : Inhabited Ext := ⟨⟨0, 0, 0⟩⟩
instance : Zero Ext := ⟨⟨0, 0, 0⟩⟩
instance : One Ext := ⟨⟨1, 0, 0⟩⟩

/-- The base field inside the extension. -/
def ofBase (a : Base) : Ext := ⟨a, 0, 0⟩

/-- The element with the given coefficients, lowest first; there have to be three. -/
def ofCoefficients : List Base → Except FieldError Ext
  | [c0, c1, c2] => .ok ⟨c0, c1, c2⟩
  | cs => .error (.wrongLength cs.length)

/-- The coefficients, lowest first. -/
def coefficients (a : Ext) : List Base := [a.c0, a.c1, a.c2]

instance : Add Ext := ⟨fun a b => ⟨a.c0 + b.c0, a.c1 + b.c1, a.c2 + b.c2⟩⟩
instance : Sub Ext := ⟨fun a b => ⟨a.c0 - b.c0, a.c1 - b.c1, a.c2 - b.c2⟩⟩
instance : Neg Ext := ⟨fun a => ⟨-a.c0, -a.c1, -a.c2⟩⟩

/-- The schoolbook product, reduced by `x³ = x - 1` and `x⁴ = x² - x`. -/
def mul (a b : Ext) : Ext :=
  let r3 := a.c1 * b.c2 + a.c2 * b.c1
  let r4 := a.c2 * b.c2
  ⟨a.c0 * b.c0 - r3,
    a.c0 * b.c1 + a.c1 * b.c0 + r3 - r4,
    a.c0 * b.c2 + a.c1 * b.c1 + a.c2 * b.c0 + r4⟩

instance : Mul Ext := ⟨mul⟩

/-- Whether the element is zero. -/
def isZero (a : Ext) : Bool := a.c0.isZero && a.c1.isZero && a.c2.isZero

/-- The power of a natural exponent. -/
def natPow (a : Ext) (n : Nat) : Ext := squareMultiply (· * ·) 1 a n

/-- The power of an integer exponent; a negative one is refused. -/
def pow (a : Ext) : Int → Except FieldError Ext
  | .ofNat n => .ok (a.natPow n)
  | .negSucc _ => .error .negativeExponent

/-- The base element that the extension element stands for, if its higher coefficients vanish. -/
def toBase (a : Ext) : Except FieldError Base :=
  if a.c1.isZero && a.c2.isZero then .ok a.c0
  else .error (.outsideBase a.c0.val a.c1.val a.c2.val)

/-- The text with the highest coefficient first. -/
def text (a : Ext) : String := s!"({a.c2.val}·x² + {a.c1.val}·x + {a.c0.val})"

/-- The element as it stands in generated source. -/
def source (a : Ext) : String := s!"XFieldElement(({a.c0.val}, {a.c1.val}, {a.c2.val}))"

end Ext

end AirCompiler
