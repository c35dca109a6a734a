import AirCompiler.Proofs.Evaluation.Bucket
import Mathlib.Algebra.Polynomial.Degree.Operations
import Mathlib.Algebra.Polynomial.Eval.Degree

/-!
# Degree bounds

A trace is interpolated column by column, and a constraint composed with the interpolants is a
polynomial in one variable. Its degree is at most the degree of the interpolants times the degree
that is kept at the constraint's node:

* `Expr.eval_polynomial`: the composed polynomial takes at every point the value of the constraint
  on the values there.
* `Expr.natDegree_polynomial_le`: its degree, by recursion over the tree.
* `BucketEvaluation.degreeBounds_sound`: so the bounds that are reported for a bucket, which leave
  out the degree of the zerofier, are upper bounds, output by output.
-/

namespace AirCompiler

open Polynomial

/-! ## Composed polynomials -/

/-- A polynomial for every cell and a value for every challenge. -/
structure Interpolants where
  cell : Cell → Polynomial Ext
  challenge : Int → Ext

/-- What the interpolants assign to cells and challenges at a point. -/
noncomputable def Interpolants.values (σ : Interpolants) (x : Ext) : Assignment :=
  ⟨fun c => (σ.cell c).eval x, σ.challenge⟩

noncomputable def Op.onPolynomial : Op → Polynomial Ext → Polynomial Ext → Polynomial Ext
  | .add, p, q => p + q
  | .mul, p, q => p * q

noncomputable def Leaf.polynomial (σ : Interpolants) : Leaf → Polynomial Ext
  | .constant s => C s.lift
  | .input c => σ.cell c
  | .challenge i => C (σ.challenge i)

/-- An expression without references, evaluated on the interpolants. -/
noncomputable def Expr.polynomial (σ : Interpolants) : Expr → Polynomial Ext
  | .leaf x => x.polynomial σ
  | .shared _ => 0
  | .operation op l r => op.onPolynomial (l.polynomial σ) (r.polynomial σ)

variable {σ : Interpolants}

theorem Op.eval_onPolynomial (op : Op) (p q : Polynomial Ext) (x : Ext) :
    (op.onPolynomial p q).eval x = op.onExt (p.eval x) (q.eval x) := by
  cases op with
  | add => exact eval_add
  | mul => exact eval_mul

theorem Leaf.eval_polynomial (y : Leaf) (x : Ext) :
    (y.polynomial σ).eval x = y.value (σ.values x) := by
  cases y with
  | constant s => exact eval_C
  | input c => rfl
  | challenge i => exact eval_C

/-- The composed polynomial takes the values of the expression. -/
theorem Expr.eval_polynomial (e : Expr) (x : Ext) :
    (e.polynomial σ).eval x = e.value (σ.values x) := by
  induction e with
  | leaf y => exact y.eval_polynomial x
  | shared id => exact eval_zero
  | operation op l r ihl ihr => rw [polynomial, op.eval_onPolynomial, ihl, ihr, value]

/-! ## Degrees -/

/-- A sum has the larger degree at most, a product the sum of both. -/
theorem Op.natDegree_onPolynomial_le (op : Op) {p q : Polynomial Ext} {n d e : Nat}
    (hp : p.natDegree ≤ n * d) (hq : q.natDegree ≤ n * e) :
    (op.onPolynomial p q).natDegree ≤ n * op.degree d e := by
  cases op with
  | add =>
    calc (p + q).natDegree ≤ max p.natDegree q.natDegree := natDegree_add_le p q
      _ ≤ max (n * d) (n * e) := max_le_max hp hq
      _ = n * max d e := (Nat.mul_max_mul_left n d e)
  | mul =>
    calc (p * q).natDegree ≤ p.natDegree + q.natDegree := natDegree_mul_le
      _ ≤ n * d + n * e := Nat.add_le_add hp hq
      _ = n * (d + e) := (Nat.mul_add n d e).symm

theorem Leaf.natDegree_polynomial_le {n : Nat} (hσ : ∀ c, (σ.cell c).natDegree ≤ n) (y : Leaf) :
    (y.polynomial σ).natDegree ≤ n * y.degree := by
  cases y with
  | constant s => exact (natDegree_C s.lift).le.trans (Nat.zero_le _)
  | input c => exact (hσ c).trans (Nat.mul_one n).ge
  | challenge i => exact (natDegree_C (σ.challenge i)).le.trans (Nat.zero_le _)

theorem Expr.natDegree_polynomial_le {n : Nat} (hσ : ∀ c, (σ.cell c).natDegree ≤ n) (e : Expr) :
    (e.polynomial σ).natDegree ≤ n * e.degree := by
  induction e with
  | leaf y => exact y.natDegree_polynomial_le hσ
  | shared id => exact natDegree_zero.le
  | operation op l r ihl ihr => exact op.natDegree_onPolynomial_le ihl ihr

/-! ## Buckets -/

/-- What can be read in the rows has the values of the interpolants at the point. -/
def Rows.Sample (rows : Rows) (σ : Interpolants) (x : Ext) : Prop :=
  ∀ (y : Leaf) (s : Scalar), y.eval rows = .ok s → s.lift = y.value (σ.values x)

namespace BucketEvaluation

variable {a : Arena} {cs : List Circuit} {role : Role} {b : BucketEvaluation}

/-- On rows sampled from interpolants the outputs have the values of the composed polynomials. -/
theorem eval_of_sample (ha : ∀ c ∈ cs, c.arena = a) (h : ofCircuits role cs = .ok b)
    {rows : Rows} {x : Ext} (hrows : rows.Sample σ x) {values : List Ext}
    (hv : b.eval rows = .ok values) :
    values = (outputOrder cs).map fun c => (c.expr.polynomial σ).eval x := by
  have hr : Readable rows cs := by
    by_contra hr
    rw [eval_of_not_readable ha h hr] at hv
    cases hv
  rw [eval_of_readable ha h hr, Except.ok.injEq] at hv
  rw [← hv]
  refine List.map_congr_left fun c hc => ?_
  rw [c.expr.eval_polynomial]
  refine Expr.value_congr fun y hy => ?_
  obtain ⟨s, hs⟩ := hr c (mem_outputOrder.1 hc) y hy
  rw [← Leaf.lift_of_eval hs, hrows y s hs]

theorem role_of_ofCircuits (h : ofCircuits role cs = .ok b) : b.role = role := by
  cases cs with
  | nil =>
    cases h
    rfl
  | cons first rest =>
    obtain ⟨plan, -, h⟩ := exists_of_bind_eq_ok h
    obtain ⟨bound, -, h⟩ := exists_of_bind_eq_ok h
    obtain ⟨outputs, -, h⟩ := exists_of_bind_eq_ok h
    cases h
    rfl

/-- The reported bounds leave out the degree of the zerofier and nothing else. -/
theorem degreeBounds_eq (ha : ∀ c ∈ cs, c.arena = a) (h : ofCircuits role cs = .ok b)
    (n height : Int) :
    b.degreeBounds n height = (outputOrder cs).map fun c =>
      n * c.degree - role.zerofierDegree height := by
  rw [degreeBounds, degrees_eq ha h, role_of_ofCircuits h, List.map_map]
  rfl

/-- Composed with interpolants of degree at most `n`, a circuit is a polynomial of degree at most
`n` times its own degree, which takes the values of the circuit. So the bound that the code of a
bucket reports for an output, together with the degree of the zerofier, bounds the degree of the
polynomial that the output is on rows sampled from the interpolants. -/
theorem degreeBounds_sound (n : Nat) (σ : Interpolants) (hσ : ∀ c, (σ.cell c).natDegree ≤ n) :
    (∀ c : Circuit, (c.expr.polynomial σ).natDegree ≤ n * c.degree ∧
      ∀ x, (c.expr.polynomial σ).eval x = c.expr.value (σ.values x)) ∧
    ∀ (a : Arena) (role : Role) (cs : List Circuit), (∀ c ∈ cs, c.arena = a) →
      ∃ b, ofCircuits role cs = .ok b ∧
      (∀ height, List.Forall₂
        (fun c bound =>
          ((c.expr.polynomial σ).natDegree : Int) ≤ bound + role.zerofierDegree height)
        (outputOrder cs) (b.degreeBounds n height)) ∧
      ∀ rows x values, rows.Sample σ x → b.eval rows = .ok values →
        values = (outputOrder cs).map fun c => (c.expr.polynomial σ).eval x := by
  have hdegree : ∀ c : Circuit, (c.expr.polynomial σ).natDegree ≤ n * c.degree := fun c => by
    rw [c.degree_eq]
    exact c.expr.natDegree_polynomial_le hσ
  refine ⟨fun c => ⟨hdegree c, c.expr.eval_polynomial⟩, fun a role cs ha => ?_⟩
  obtain ⟨b, hb⟩ := exists_ofCircuits ha role
  refine ⟨b, hb, fun height => ?_, fun rows x values hrows hv => eval_of_sample ha hb hrows hv⟩
  rw [degreeBounds_eq ha hb, List.forall₂_map_right_iff, List.forall₂_same]
  intro c _
  have hc : ((c.expr.polynomial σ).natDegree : Int) ≤ n * c.degree := by exact_mod_cast hdegree c
  omega

end BucketEvaluation

/-- Monomials of degree seven, with the columns as coefficients. -/
noncomputable def Interpolants.monomials : Interpolants where
  cell c := C (.ofBase (.ofInt c.column)) * X ^ 7
  challenge i := .ofBase (.ofInt i)

/-- Bounds for the transition constraints of `synthetic`, of degrees up to five, in a trace of
height sixteen. -/
theorem BucketEvaluation.degreeBounds_sound_synthetic :
    let cs := ConstraintSystem.synthetic.circuits .transition
    (∀ c, (Interpolants.monomials.cell c).natDegree ≤ 7) ∧ ∃ b, ofCircuits .transition cs = .ok b ∧
      b.degreeBounds 7 16 = [20, 6, 20, -1] ∧
      List.Forall₂ (fun c bound => ((c.expr.polynomial .monomials).natDegree : Int) ≤ bound + 15)
        (outputOrder cs) (b.degreeBounds 7 16) := by
  intro cs
  have hcell : ∀ c, (Interpolants.monomials.cell c).natDegree ≤ 7 :=
    fun c => natDegree_C_mul_X_pow_le _ 7
  have ha : ∀ c ∈ cs, c.arena = ConstraintSystem.synthetic.arena := by
    intro c hc
    obtain ⟨x, -, hx⟩ := List.mem_filterMap.1 hc
    exact (Arena.circuit?_eq_some.1 hx).1
  obtain ⟨b, hb, hbounds⟩ : ∃ b, ofCircuits .transition cs = .ok b ∧
      b.degreeBounds 7 16 = [20, 6, 20, -1] :=
    exists_eq_ok (by decide +kernel)
  obtain ⟨b', hb', hsound, -⟩ := (degreeBounds_sound 7 .monomials hcell).2 _ .transition cs ha
  rw [hb, Except.ok.injEq] at hb'
  subst hb'
  exact ⟨hcell, b, hb, hbounds, hsound 16⟩

end AirCompiler
