import AirCompiler.Proofs.Evaluation.Bucket

/-!
# Evaluation of a whole system

On rows of the shape's widths every admitted variable can be read, but a bucket of a single-row role
is not shown the next row. So the evaluation code of a system yields the values of all constraints,
bucket after bucket, if constraints of such buckets do not look at the next row (`SingleRow`,
`Evaluation.evalAll_of_singleRow`), and no values otherwise (`Evaluation.evalAll_of_not_singleRow`).
-/

namespace AirCompiler

/-- The number of columns of a table. -/
def Shape.columns (shape : Shape) : Table → Int
  | .main => shape.mainColumns
  | .aux => shape.auxColumns

/-- The shape has the column in the table. -/
def Shape.HasColumn (shape : Shape) (table : Table) (column : Int) : Prop :=
  0 ≤ column ∧ column < shape.columns table

instance Shape.decidableHasColumn (shape : Shape) (table : Table) (column : Int) :
    Decidable (shape.HasColumn table column) :=
  inferInstanceAs (Decidable (_ ∧ _))

/-- The shape has a column or challenge of the index. -/
def Shape.Admits (shape : Shape) : Leaf → Prop
  | .constant _ => True
  | .input c => shape.HasColumn c.table c.column
  | .challenge i => 0 ≤ i ∧ i < shape.challenges

instance Shape.decidableAdmits (shape : Shape) : DecidablePred shape.Admits
  | .constant _ => isTrue trivial
  | .input _ => inferInstanceAs (Decidable (shape.HasColumn _ _))
  | .challenge _ => inferInstanceAs (Decidable (_ ∧ _))

/-- The rows and challenges have the numbers of entries that the shape says. -/
structure Rows.Fits (rows : Rows) (shape : Shape) : Prop where
  row : ∀ row table, ((rows.row row table).size : Int) = shape.columns table
  challenges : (rows.challenges.size : Int) = shape.challenges

/-- The constraints stand in one arena, and their variables are within the shape. -/
def Buckets.Within (cs : Buckets (List Circuit)) (a : Arena) (shape : Shape) : Prop :=
  ∀ role, ∀ c ∈ cs.get role, c.arena = a ∧ ∀ x ∈ c.expr.vars, shape.Admits x

/-- Only constraints of roles that look at two rows use the next one. -/
def SingleRow (cs : Buckets (List Circuit)) : Prop :=
  ∀ role : Role, role.isDualRow = false → ∀ c ∈ cs.get role, c.usesNextRow = false

/-! ## Rows -/

theorem position?_of_lt {length : Nat} {i : Int} (h₀ : 0 ≤ i) (h : i < length) :
    position? length i = some i.toNat := by
  simp [position?, show ¬ i < 0 by omega, h₀, h]

theorem itemAt?_of_lt {α : Type} {xs : Array α} {i : Int} (h₀ : 0 ≤ i) (h : i < xs.size) :
    ∃ x, itemAt? xs i = some x ∧ xs[i.toNat]? = some x := by
  have hlt : i.toNat < xs.size := by omega
  refine ⟨xs[i.toNat], ?_, Array.getElem?_eq_getElem hlt⟩
  rw [itemAt?, position?_of_lt h₀ h]
  exact Array.getElem?_eq_getElem hlt

theorem itemAt?_of_nonneg {α : Type} (xs : Array α) {i : Int} (h : 0 ≤ i) :
    itemAt? xs i = xs[i.toNat]? := by
  by_cases hi : i < xs.size
  · obtain ⟨x, hx, hget⟩ := itemAt?_of_lt h hi
    rw [hx, hget]
  · have hpos : position? xs.size i = none := by
      simp [position?, show ¬ i < 0 by omega, hi]
    rw [itemAt?, hpos, Array.getElem?_eq_none (by omega)]
    rfl

theorem itemAt?_empty {α : Type} (i : Int) : itemAt? (#[] : Array α) i = none := by
  unfold itemAt?
  cases position? (#[] : Array α).size i <;> simp

namespace Rows.Fits

variable {rows : Rows} {shape : Shape}

theorem readable (h : rows.Fits shape) {x : Leaf} (hx : shape.Admits x) : x.Readable rows := by
  cases x with
  | constant s => exact ⟨s, rfl⟩
  | input c =>
    obtain ⟨s, hs, -⟩ := itemAt?_of_lt hx.1 ((h.row c.row c.table).symm ▸ hx.2)
    exact ⟨s, by rw [Leaf.eval, hs]; rfl⟩
  | challenge i =>
    obtain ⟨s, hs, -⟩ := itemAt?_of_lt hx.1 (h.challenges.symm ▸ hx.2)
    exact ⟨s, by rw [Leaf.eval, hs]; rfl⟩

end Rows.Fits

theorem Leaf.eval_withoutNext {rows : Rows} {x : Leaf} (h : ∀ c, x = .input c → c.row ≠ .next) :
    x.eval rows.withoutNext = x.eval rows := by
  cases x with
  | constant s => rfl
  | input c =>
    obtain ⟨row, table, column⟩ := c
    cases row with
    | current => cases table <;> rfl
    | next => exact absurd rfl (h _ rfl)
  | challenge i => rfl

theorem Leaf.not_readable_withoutNext {rows : Rows} {c : Cell} (h : c.row = .next) :
    ¬ (Leaf.input c).Readable rows.withoutNext := by
  rintro ⟨s, hs⟩
  obtain ⟨row, table, column⟩ := c
  cases h
  have hrow : rows.withoutNext.row .next table = #[] := by cases table <;> rfl
  rw [Leaf.eval, hrow, itemAt?_empty] at hs
  cases hs

/-! ## Systems -/

namespace Evaluation

variable {a : Arena} {shape : Shape} {cs : Buckets (List Circuit)} {ev : Evaluation} {rows : Rows}

theorem ofCircuits_get (h : Evaluation.ofCircuits cs = .ok ev) (role : Role) :
    BucketEvaluation.ofCircuits role (cs.get role) = .ok (ev.get role) := by
  obtain ⟨b₁, h₁, h⟩ := exists_of_bind_eq_ok h
  obtain ⟨b₂, h₂, h⟩ := exists_of_bind_eq_ok h
  obtain ⟨b₃, h₃, h⟩ := exists_of_bind_eq_ok h
  obtain ⟨b₄, h₄, h⟩ := exists_of_bind_eq_ok h
  cases h
  cases role <;> assumption

theorem exists_ofCircuits (ha : ∀ role, ∀ c ∈ cs.get role, c.arena = a) :
    ∃ ev, Evaluation.ofCircuits cs = .ok ev := by
  obtain ⟨b₁, h₁⟩ := BucketEvaluation.exists_ofCircuits (ha .initial) .initial
  obtain ⟨b₂, h₂⟩ := BucketEvaluation.exists_ofCircuits (ha .consistency) .consistency
  obtain ⟨b₃, h₃⟩ := BucketEvaluation.exists_ofCircuits (ha .transition) .transition
  obtain ⟨b₄, h₄⟩ := BucketEvaluation.exists_ofCircuits (ha .terminal) .terminal
  refine ⟨⟨b₁, b₂, b₃, b₄⟩, ?_⟩
  simp only [Buckets.get] at h₁ h₂ h₃ h₄
  rw [Evaluation.ofCircuits, h₁, h₂, h₃, h₄]
  rfl

/-- A bucket of a role that sees the rows it uses. -/
theorem evalBucket_of_singleRow (hcs : cs.Within a shape) (hrows : rows.Fits shape)
    (h : Evaluation.ofCircuits cs = .ok ev) {role : Role}
    (hs : role.isDualRow = false → ∀ c ∈ cs.get role, c.usesNextRow = false) :
    ev.evalBucket rows role =
      .ok ((outputOrder (cs.get role)).map fun c => c.expr.value rows.assignment) := by
  have ha : ∀ c ∈ cs.get role, c.arena = a := fun c hc => (hcs role c hc).1
  have hb := ofCircuits_get h role
  rw [evalBucket]
  cases hd : role.isDualRow with
  | true =>
    exact BucketEvaluation.eval_of_readable ha hb fun c hc x hx =>
      hrows.readable ((hcs role c hc).2 x hx)
  | false =>
    have heval : ∀ c ∈ cs.get role, ∀ x ∈ c.expr.vars, x.eval rows.withoutNext = x.eval rows := by
      intro c hc x hx
      refine Leaf.eval_withoutNext fun cell hcell hnext => ?_
      have := Circuit.usesNextRow_iff.2 ⟨cell, hnext, hcell ▸ hx⟩
      rw [hs hd c hc] at this
      cases this
    have hr : Readable rows.withoutNext (cs.get role) := by
      intro c hc x hx
      rw [Leaf.Readable, heval c hc x hx]
      exact hrows.readable ((hcs role c hc).2 x hx)
    rw [if_neg (by simp), BucketEvaluation.eval_of_readable ha hb hr]
    refine congrArg Except.ok (List.map_congr_left fun c hc => Expr.value_congr fun x hx => ?_)
    rw [mem_outputOrder] at hc
    obtain ⟨s, hs⟩ := hr c hc x hx
    rw [← Leaf.lift_of_eval hs, ← Leaf.lift_of_eval ((heval c hc x hx) ▸ hs)]

/-- A bucket of a single-row role with a constraint that uses the next row. -/
theorem evalBucket_of_usesNextRow (hcs : cs.Within a shape) (h : Evaluation.ofCircuits cs = .ok ev)
    {role : Role} (hd : role.isDualRow = false) {c : Circuit} (hc : c ∈ cs.get role)
    (hn : c.usesNextRow = true) : ev.evalBucket rows role = .error .outOfRange := by
  obtain ⟨cell, hrow, hcell⟩ := Circuit.usesNextRow_iff.1 hn
  rw [evalBucket, hd, if_neg (by simp)]
  exact BucketEvaluation.eval_of_not_readable
    (fun c hc => (hcs role c hc).1) (ofCircuits_get h role)
    fun hr => Leaf.not_readable_withoutNext hrow (hr c hc _ hcell)

/-- The values of all constraints, bucket after bucket, those over the base field first in each. -/
def values (ρ : Assignment) (cs : Buckets (List Circuit)) : List Ext :=
  Role.all.flatMap fun role => (outputOrder (cs.get role)).map fun c => c.expr.value ρ

theorem evalAll_of_singleRow (hcs : cs.Within a shape) (hrows : rows.Fits shape)
    (h : Evaluation.ofCircuits cs = .ok ev) (hs : SingleRow cs) :
    ev.evalAll rows = .ok (values rows.assignment cs) := by
  rw [evalAll, mapM_eq_map fun role _ => evalBucket_of_singleRow hcs hrows h (hs role)]
  rfl

theorem evalAll_of_not_singleRow (hcs : cs.Within a shape) (hrows : rows.Fits shape)
    (h : Evaluation.ofCircuits cs = .ok ev) (hs : ¬ SingleRow cs) :
    ev.evalAll rows = .error .outOfRange := by
  have hcases : ∀ role, (∃ xs, ev.evalBucket rows role = .ok xs) ∨
      ev.evalBucket rows role = .error .outOfRange := by
    intro role
    by_cases hr : role.isDualRow = false → ∀ c ∈ cs.get role, c.usesNextRow = false
    · exact .inl ⟨_, evalBucket_of_singleRow hcs hrows h hr⟩
    · push Not at hr
      obtain ⟨hd, c, hc, hn⟩ := hr
      exact .inr (evalBucket_of_usesNextRow hcs h hd hc (by simpa using hn))
  have hsome : ∃ role ∈ Role.all, ev.evalBucket rows role = .error .outOfRange := by
    unfold SingleRow at hs
    push Not at hs
    obtain ⟨role, hd, c, hc, hn⟩ := hs
    exact ⟨role, role.mem_all, evalBucket_of_usesNextRow hcs h hd hc (by simpa using hn)⟩
  rw [evalAll, mapM_eq_error (fun role _ => hcases role) hsome]
  rfl

end Evaluation

end AirCompiler
