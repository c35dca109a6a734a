import AirCompiler.Proofs.Field.Powers
import Mathlib.Algebra.Polynomial.SpecificDegree
import Mathlib.RingTheory.AdjoinRoot
import Mathlib.Tactic.ComputeDegree
import Mathlib.Tactic.LinearCombination

/-!
# The extension is a field

The extension is the quotient of the polynomials over the base field by `x³ - x + 1`:

* `Ext.evalAt`: wherever the cubic has a root, triples can be evaluated at it, and this is a
  homomorphism.
* `cubic_irreducible`: the cubic has no root in the base field. At a root, the Frobenius power of
  the generator would have the value of the generator; but their difference is a unit, as its power
  of exponent `prime ^ 3 - 1` shows.
* `Ext.quotient`: evaluation at the root of the quotient is an isomorphism, so every element but
  zero has an inverse.

Operands of different kinds are combined as if they had been lifted first (`Value.lift_combine?`).
-/

namespace AirCompiler

open Polynomial

/-- The polynomial whose root generates the extension. -/
noncomputable def cubic : (ZMod prime)[X] := X ^ 3 - X + 1

theorem cubic_natDegree : cubic.natDegree = 3 := by
  unfold cubic
  compute_degree!

theorem cubic_monic : cubic.Monic := by
  unfold cubic
  monicity!

namespace Ext

/-! ## Evaluation at a root -/

/-- The generator of the extension. -/
def generator : Ext := ⟨0, 1, 0⟩

/-- The value of a triple as a polynomial, at a root of the cubic. -/
def evalAt {A : Type} [CommRing A] (f : ZMod prime →+* A) (r : A) (h : r ^ 3 = r - 1) :
    Ext →+* A where
  toFun x := f x.c0.residue + f x.c1.residue * r + f x.c2.residue * r ^ 2
  map_zero' := by simp [zero_def, Base.residue_zero]
  map_one' := by simp [one_def, Base.residue_zero, Base.residue_one]
  map_add' x y := by
    simp only [add_def, Base.residue_add, map_add]
    ring
  map_mul' x y := by
    simp only [mul_def, Base.residue_add, Base.residue_sub, Base.residue_mul,
      map_add, map_sub, map_mul]
    linear_combination (-(f x.c1.residue * f y.c2.residue + f x.c2.residue * f y.c1.residue) -
      f x.c2.residue * f y.c2.residue * r) * h

theorem evalAt_apply {A : Type} [CommRing A] (f : ZMod prime →+* A) (r : A)
    (h : r ^ 3 = r - 1) (x : Ext) :
    evalAt f r h x = f x.c0.residue + f x.c1.residue * r + f x.c2.residue * r ^ 2 := rfl

theorem evalAt_generator {A : Type} [CommRing A] (f : ZMod prime →+* A) (r : A)
    (h : r ^ 3 = r - 1) : evalAt f r h generator = r := by
  simp [evalAt_apply, generator, Base.residue_zero, Base.residue_one]

/-- The Frobenius map moves the generator by a unit. -/
theorem frobenius_sub_generator_pow :
    (generator.natPow prime - generator).natPow (prime * prime * prime - 1) = 1 := by decide +kernel

end Ext

/-! ## Irreducibility -/

theorem cubic_no_root (r : ZMod prime) : r ^ 3 ≠ r - 1 := by
  intro h
  have hfixed : Ext.evalAt (.id _) r h (Ext.generator.natPow prime - Ext.generator) = 0 := by
    rw [map_sub, Ext.natPow_eq, map_pow, Ext.evalAt_generator, ZMod.pow_card, sub_self]
  have hunit := congrArg (Ext.evalAt (.id _) r h) Ext.frobenius_sub_generator_pow
  rw [Ext.natPow_eq, map_pow, hfixed, zero_pow (by decide), map_one] at hunit
  exact zero_ne_one hunit

theorem cubic_irreducible : Irreducible cubic := by
  refine irreducible_of_degree_le_three_of_not_isRoot (by rw [cubic_natDegree]; decide) fun r hr =>
    ?_
  refine cubic_no_root r ?_
  simp only [IsRoot, cubic, eval_add, eval_sub, eval_pow, eval_X, eval_one] at hr
  linear_combination hr

instance : Fact (Irreducible cubic) := ⟨cubic_irreducible⟩

namespace Ext

/-! ## The quotient -/

theorem root_cubed : (AdjoinRoot.root cubic) ^ 3 = AdjoinRoot.root cubic - 1 := by
  have h : AdjoinRoot.mk cubic (X ^ 3 - X + 1) = 0 := AdjoinRoot.mk_self
  simp only [map_add, map_sub, map_pow, map_one, AdjoinRoot.mk_X] at h
  linear_combination h

/-- The class of a triple modulo the cubic. -/
noncomputable def toQuotient : Ext →+* AdjoinRoot cubic :=
  evalAt (AdjoinRoot.of cubic) (AdjoinRoot.root cubic) root_cubed

/-- The triple as a polynomial. -/
noncomputable def polynomial (x : Ext) : (ZMod prime)[X] :=
  C x.c0.residue + C x.c1.residue * X + C x.c2.residue * X ^ 2

theorem toQuotient_eq_mk (x : Ext) : toQuotient x = AdjoinRoot.mk cubic x.polynomial := by
  simp only [toQuotient, evalAt_apply, polynomial, map_add, map_mul, map_pow,
    AdjoinRoot.mk_C, AdjoinRoot.mk_X]

theorem polynomial_natDegree_lt (x : Ext) : x.polynomial.natDegree < cubic.natDegree := by
  have h : x.polynomial.natDegree ≤ 2 := by
    unfold polynomial
    compute_degree
  rw [cubic_natDegree]
  omega

theorem coeff_polynomial (x : Ext) :
    x.polynomial.coeff 0 = x.c0.residue ∧ x.polynomial.coeff 1 = x.c1.residue ∧
      x.polynomial.coeff 2 = x.c2.residue := by
  simp [polynomial, coeff_X, coeff_C]

theorem eq_zero_of_polynomial {x : Ext} (h : x.polynomial = 0) : x = 0 := by
  obtain ⟨h₀, h₁, h₂⟩ := x.coeff_polynomial
  rw [h, coeff_zero] at h₀ h₁ h₂
  ext1
  · exact Base.residue_injective (h₀.symm.trans Base.residue_zero.symm)
  · exact Base.residue_injective (h₁.symm.trans Base.residue_zero.symm)
  · exact Base.residue_injective (h₂.symm.trans Base.residue_zero.symm)

theorem toQuotient_injective : Function.Injective toQuotient := by
  rw [injective_iff_map_eq_zero]
  intro x hx
  rw [toQuotient_eq_mk] at hx
  by_contra hne
  exact AdjoinRoot.mk_ne_zero_of_natDegree_lt cubic_monic (mt eq_zero_of_polynomial hne)
    x.polynomial_natDegree_lt hx

theorem toQuotient_ofBase (a : Base) : toQuotient (ofBase a) = AdjoinRoot.of cubic a.residue := by
  simp [toQuotient, evalAt_apply, ofBase, Base.residue_zero]

theorem toQuotient_surjective : Function.Surjective toQuotient := by
  intro y
  induction y using AdjoinRoot.induction_on with
  | ih p =>
    induction p using Polynomial.induction_on' with
    | add p q hp hq =>
      obtain ⟨x, hx⟩ := hp
      obtain ⟨y, hy⟩ := hq
      exact ⟨x + y, by rw [map_add, map_add, hx, hy]⟩
    | monomial n a =>
      have ha : (Base.ofNat a.val).residue = a := by rw [Base.residue_ofNat, ZMod.natCast_zmod_val]
      refine ⟨ofBase (.ofNat a.val) * generator ^ n, ?_⟩
      rw [map_mul, map_pow, toQuotient_ofBase, ha, toQuotient, evalAt_generator,
        ← C_mul_X_pow_eq_monomial, map_mul, map_pow, AdjoinRoot.mk_C, AdjoinRoot.mk_X]

/-- The extension is the quotient of the polynomials by the cubic. -/
noncomputable def quotient : Ext ≃+* AdjoinRoot cubic :=
  .ofBijective toQuotient ⟨toQuotient_injective, toQuotient_surjective⟩

theorem exists_inverse {x : Ext} (h : x ≠ 0) : ∃ y, x * y = 1 := by
  have hne : quotient x ≠ 0 := (map_ne_zero_iff quotient quotient.injective).2 h
  refine ⟨quotient.symm (quotient x)⁻¹, quotient.injective ?_⟩
  rw [map_mul, RingEquiv.apply_symm_apply, mul_inv_cancel₀ hne, map_one]

theorem eq_zero_or_eq_zero {x y : Ext} (h : x * y = 0) : x = 0 ∨ y = 0 := by
  by_cases hx : x = 0
  · exact .inl hx
  · obtain ⟨z, hz⟩ := exists_inverse hx
    refine .inr ?_
    calc y = x * z * y := by rw [hz, one_mul]
      _ = z * (x * y) := by rw [mul_comm x z, mul_assoc]
      _ = 0 := by rw [h, mul_zero]

/-! ## Triples -/

/-- The representatives of the coefficients, lowest coefficient first. -/
def representatives (x : Ext) : List Nat := x.coefficients.map Base.val

theorem representatives_injective {x y : Ext} (h : x.representatives = y.representatives) :
    x = y := by
  simp only [representatives, coefficients, List.map_cons, List.cons.injEq, ← Base.ext_iff] at h
  exact Ext.ext h.1 h.2.1 h.2.2.1

/-- Elements are built from three integers of any size, which are reduced. -/
theorem ofCoefficients_representatives (ns : List Int) :
    (∃ x, ofCoefficients (ns.map .ofInt) = .ok x ∧
      x.representatives.map (fun w => (w : Int)) = ns.map (· % (prime : Int))) ↔ ns.length = 3 := by
  constructor
  · rintro ⟨x, -, hx⟩
    simpa [representatives, coefficients] using (congrArg List.length hx).symm
  · intro h
    obtain ⟨a, b, c, rfl⟩ := List.length_eq_three.1 h
    exact ⟨_, rfl, by simp [representatives, coefficients, Base.val_ofInt]⟩

end Ext

/-! ## Operands of different kinds -/

theorem Base.residue_ofInt (n : Int) : (ofInt n).residue = n := by
  rw [residue, ← Int.cast_natCast, val_ofInt, ZMod.intCast_mod]

theorem Base.ofInt_eq_cast (n : Int) : ofInt n = n := by
  refine residue_injective ?_
  rw [residue_ofInt]
  exact (map_intCast residueHom n).symm

/-- Lifting as a homomorphism. -/
def Ext.ofBaseHom : Base →+* Ext where
  toFun := ofBase
  map_zero' := rfl
  map_one' := rfl
  map_add' := ofBase_add
  map_mul' := ofBase_mul

theorem Ext.ofBase_ofInt (n : Int) : ofBase (.ofInt n) = n := by
  rw [Base.ofInt_eq_cast]
  exact map_intCast ofBaseHom n

theorem Arithmetic.map_on {R S : Type} [Ring R] [Ring S] (f : R →+* S) (op : Arithmetic) (x y : R) :
    f (op.on x y) = op.on (f x) (f y) := by
  cases op with
  | add => exact map_add f x y
  | sub => exact map_sub f x y
  | mul => exact map_mul f x y

theorem Arithmetic.lift_on (op : Arithmetic) (s t : Scalar) :
    (op.on s t).lift = op.on s.lift t.lift := by
  cases s with
  | base a =>
    cases t with
    | base b =>
      have h := map_on Ext.ofBaseHom op a b
      cases op <;> exact h
    | ext y => cases op <;> rfl
  | ext x => cases op <;> cases t <;> rfl

/-- Integers may be combined before or after they are reduced and lifted. -/
theorem Arithmetic.ofBase_ofInt_on (op : Arithmetic) (m n : Int) :
    Ext.ofBase (.ofInt (op.on m n)) = op.on (Ext.ofBase (.ofInt m)) (Ext.ofBase (.ofInt n)) := by
  simp only [Ext.ofBase_ofInt]
  exact map_on (Int.castRingHom Ext) op m n

namespace Value

/-- The extension element that a value stands for. -/
def lift? (x : Value) : Option Ext := x.toScalar?.map Scalar.lift

theorem lift?_integer (n : Int) : (integer n).lift? = some (n : Ext) :=
  congrArg some (Ext.ofBase_ofInt n)

/-- A field element on the left may be lifted first, and so may its operand. -/
theorem lift_combine?_left (op : Arithmetic) (s : Scalar) (y : Value) :
    ((scalar s).combine? op y).map Scalar.lift = y.lift?.map (op.on s.lift) := by
  cases y with
  | scalar t => exact congrArg some (op.lift_on s t)
  | integer n =>
    cases s with
    | base a =>
      have h := op.ofBase_ofInt_on a.val n
      rw [Base.ofInt_val] at h
      exact congrArg some h
    | ext x => rfl
  | foreign _ => cases s <;> rfl

/-- A field element on the right may be lifted first, and so may its operand. -/
theorem lift_combine?_right (op : Arithmetic) (x : Value) (t : Scalar) :
    (x.combine? op (scalar t)).map Scalar.lift = x.lift?.map (op.on · t.lift) := by
  cases x with
  | scalar s => exact congrArg some (op.lift_on s t)
  | integer n =>
    cases t with
    | base a =>
      have h := op.ofBase_ofInt_on n a.val
      rw [Base.ofInt_val] at h
      exact congrArg some h
    | ext x => rfl
  | foreign _ => cases t <;> rfl

end Value

/-! ## The field of triples -/

/-- The extension with its operations, as a field of triples of words over the base field. -/
structure Ext.IsCubicField : Prop where
  /-- The sum makes a commutative group, with the extension's own negation and difference. -/
  group (x y z : Ext) : x + y + z = x + (y + z) ∧ x + y = y + x ∧ x + 0 = x ∧
    x + -x = 0 ∧ x - y = x + -y
  /-- The product is associative and commutative, has a unit and distributes over sums. -/
  ring (x y z : Ext) : x * y * z = x * (y * z) ∧ x * y = y * x ∧ x * 1 = x ∧
    x * (y + z) = x * y + x * z
  /-- Three integers make an element, whose words are the integers reduced; any other number of them
  does not. -/
  triple (ns : List Int) :
    (∃ x, ofCoefficients (ns.map .ofInt) = .ok x ∧
      x.representatives.map (fun w => (w : Int)) = ns.map (· % (prime : Int))) ↔ ns.length = 3
  /-- The words of an element are below the order of the base field, and no other element has
  them. -/
  canonical (x y : Ext) : (∀ w ∈ x.representatives, w < prime) ∧
    (x.representatives = y.representatives ↔ x = y)
  generator_cubed : generator.pow 3 = .ok (generator - 1)
  ofBase_injective : Function.Injective ofBase
  ofBase_hom (a b : Base) : ofBase 0 = 0 ∧ ofBase 1 = 1 ∧ ofBase (a + b) = ofBase a + ofBase b ∧
    ofBase (a * b) = ofBase a * ofBase b ∧ ofBase (-a) = -ofBase a ∧
    ofBase (a - b) = ofBase a - ofBase b
  /-- Next to a field element, an operand of any kind may be lifted first; an integer is lifted to
  its class. -/
  mixed (op : Arithmetic) (s : Scalar) (x : Value) (n : Int) :
    ((Value.scalar s).combine? op x).map Scalar.lift = x.lift?.map (op.on s.lift) ∧
      (x.combine? op (.scalar s)).map Scalar.lift = x.lift?.map (op.on · s.lift) ∧
      (Value.integer n).lift? = some (n : Ext)
  inverse (x : Ext) : x ≠ 0 → ∃ y, x * y = 1
  no_zero_divisors (x y : Ext) : x ≠ 0 → y ≠ 0 → x * y ≠ 0

/-- The extension is a field. -/
theorem Ext.isCubicField : IsCubicField where
  group x y z := ⟨add_assoc x y z, add_comm x y, add_zero x, add_neg_cancel x, sub_eq_add_neg x y⟩
  ring x y z := ⟨mul_assoc x y z, mul_comm x y, mul_one x, mul_add x y z⟩
  triple := ofCoefficients_representatives
  canonical x y := by
    refine ⟨fun w hw => ?_, representatives_injective, congrArg representatives⟩
    obtain ⟨c, -, rfl⟩ := List.mem_map.1 hw
    exact c.isLt
  generator_cubed := by decide +kernel
  ofBase_injective _ _ h := congrArg c0 h
  ofBase_hom a b :=
    ⟨rfl, rfl, ofBase_add a b, ofBase_mul a b, map_neg ofBaseHom a, map_sub ofBaseHom a b⟩
  mixed op s x n :=
    ⟨Value.lift_combine?_left op s x, Value.lift_combine?_right op x s, Value.lift?_integer n⟩
  inverse _ := exists_inverse
  no_zero_divisors _ _ hx hy h := (eq_zero_or_eq_zero h).elim hx hy

end AirCompiler
