/-!
# The base field

The prime field of the machine's words, of order `2 ^ 64 - 2 ^ 32 + 1`. An element is its canonical
representative, so two elements are equal exactly when their representatives are.
-/

namespace AirCompiler

/-- The order of the base field, `2 ^ 64 - 2 ^ 32 + 1`. -/
abbrev prime : Nat := 18446744069414584321

theorem prime_pos : 0 < prime := by decide

/-- Why an operation on field elements has no result. -/
inductive FieldError where
  /-- An extension element was given another number of coefficients than three. -/
  | wrongLength (given : Nat)
  /-- Zero has no inverse. -/
  | zeroInverse
  /-- The extension has no power of negative exponent. -/
  | negativeExponent
  /-- An extension element with the given coefficients lies outside the base field. -/
  | outsideBase (c0 c1 c2 : Nat)
  deriving DecidableEq

/-- The text that reports a field error. -/
def FieldError.message : FieldError → String
  | .wrongLength n => s!"Extension element needs 3 coefficients, got {n}"
  | .zeroInverse => "Cannot invert zero"
  | .negativeExponent => "Negative exponents are not supported in the extension field"
  | .outsideBase c0 c1 c2 => s!"XFieldElement(({c0}, {c1}, {c2})) is not a base field element"

/-- Square and multiply: multiplies `result` by the `n`-fold product of `base`, with one squaring
for each binary digit of `n`. -/
def squareMultiply {α : Type} (mul : α → α → α) (result base : α) (n : Nat) : α :=
  if n = 0 then result
  else squareMultiply mul (if n % 2 = 1 then mul result base else result) (mul base base) (n / 2)
termination_by n

/-- An element of the base field, by its representative below `prime`. -/
@[ext] structure Base where
  val : Nat
  isLt : val < prime
  deriving DecidableEq

namespace Base

/-- The class of a natural number. -/
def ofNat (n : Nat) : Base := ⟨n % prime, Nat.mod_lt n prime_pos⟩

/-- The class of an integer, of either sign. -/
def ofInt (n : Int) : Base :=
  ⟨(n % (prime : Int)).toNat, by
    have h₀ := Int.emod_nonneg n (b := (prime : Int)) (by decide)
    have h₁ := Int.emod_lt_of_pos n (b := (prime : Int)) (by decide)
    omega⟩

instance : Zero Base := ⟨⟨0, by decide⟩⟩
instance : One Base := ⟨⟨1, by decide⟩⟩
instance : Inhabited Base := ⟨0⟩
instance : Add Base := ⟨fun a b => ofNat (a.val + b.val)⟩
instance : Mul Base := ⟨fun a b => ofNat (a.val * b.val)⟩
instance : Neg Base := ⟨fun a => ofNat (prime - a.val)⟩
instance : Sub Base := ⟨fun a b => ofNat (a.val + (prime - b.val))⟩

/-- The class of minus one. -/
def minusOne : Base := ofInt (-1)

/-- Whether the element is zero. -/
def isZero (a : Base) : Bool := a.val == 0

/-- The power of a natural exponent. -/
def natPow (a : Base) (n : Nat) : Base := squareMultiply (· * ·) 1 a n

/-- The inverse, by Fermat's little theorem: `a ^ (prime - 2)`. -/
def inverse (a : Base) : Except FieldError Base :=
  if a.isZero then .error .zeroInverse else .ok (a.natPow (prime - 2))

/-- The power of an integer exponent; a negative one is a power of the inverse. -/
def pow (a : Base) : Int → Except FieldError Base
  | .ofNat n => .ok (a.natPow n)
  | .negSucc n => do
    let b ← a.inverse
    return b.natPow (n + 1)

/-- The decimal text of the representative. -/
def text (a : Base) : String := toString a.val

/-- The element as it stands in generated source. -/
def source (a : Base) : String := s!"BFieldElement({a.val})"

end Base

end AirCompiler
