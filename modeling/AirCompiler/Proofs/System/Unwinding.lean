import AirCompiler.System.Lowering
import AirCompiler.Proofs.Circuit.Canonical

/-!
# Reading constraints as rules

A rule is read off a constraint `column + (-1) * expression`. As nodes are shared, both the sum and
the product may have been built earlier, for something else, with their operands in the other order.

* `Arena.Subtracts a k column i`: node `k` is a cell plus minus one times node `i`, in any of the
  four orders.
* `Rule.ofCircuit_eq_ok_iff`: that is what a constraint is read by, and it leaves one choice of
  column and expression.
* `Build.sub_subtracts`: a difference of a cell and a node that is no constant has this form in
  every arena.
* `Arena.unwinds`: so every difference is read back, and what is read has the value of the
  difference.
-/

namespace AirCompiler

/-! ## Differences -/

namespace Arena

/-- Node `n` is the product of minus one and node `i`, in either order. -/
def Negates (a : Arena) (n i : Nat) : Prop :=
  ∃ m, a.label? m = some (.leaf (.constant (.base .minusOne))) ∧
    (a.label? n = some (.binary .mul m i) ∨ a.label? n = some (.binary .mul i m))

/-- Node `k` is the sum of a cell and of a product of minus one and node `i`, in either order. -/
def Subtracts (a : Arena) (k : Nat) (column : Cell) (i : Nat) : Prop :=
  ∃ v n, a.label? v = some (.leaf (.input column)) ∧ a.Negates n i ∧
    (a.label? k = some (.binary .add v n) ∨ a.label? k = some (.binary .add n v))

variable {a : Arena} {k i : Nat} {column : Cell} {e z : Expr}

namespace Subtracts

theorem lt (h : a.Subtracts k column i) : k < a.size := by
  obtain ⟨v, n, -, -, hk⟩ := h
  exact hk.elim lt_of_label? lt_of_label?

theorem operand_lt (h : a.Subtracts k column i) : i < a.size := by
  obtain ⟨v, n, -, ⟨m, -, hn | hn⟩, -⟩ := h
  · exact (operands_lt hn).2.trans (lt_of_label? hn)
  · exact (operands_lt hn).1.trans (lt_of_label? hn)

/-- The tree of a difference. -/
theorem unfolds (h : a.Subtracts k column i) (he : a.Unfolds i e) :
    ∃ y z, a.Unfolds k z ∧ Combines .mul (.leaf (.constant (.base .minusOne))) e y ∧
      Combines .add (.leaf (.input column)) y z := by
  obtain ⟨v, n, hv, ⟨m, hm, hn⟩, hk⟩ := h
  obtain ⟨y, hy, hmul⟩ := Joins.unfolds (hn.imp_right .inl) (.leaf hm) he
  obtain ⟨z, hz, hadd⟩ := Joins.unfolds (hk.imp_right .inl) (.leaf hv) hy
  exact ⟨y, z, hz, hmul, hadd⟩

/-- A difference has the value of the cell less that of the node. -/
theorem value_eq (h : a.Subtracts k column i) (he : a.Unfolds i e)
    (hz : a.Unfolds k z) {ρ : Assignment} : z.value ρ = ρ.cell column - e.value ρ := by
  obtain ⟨y, z', hz', hmul, hadd⟩ := h.unfolds he
  rw [hz.unique hz', hadd.value_eq, hmul.value_eq]
  simp [Expr.value, Leaf.value, Op.onExt, Scalar.lift_minusOne, sub_eq_add_neg]

end Subtracts

end Arena

/-- The difference of a cell and a node that is no constant, in whatever arena it is built. -/
theorem Build.sub_subtracts {a : Arena} {v i : Nat} {column : Cell} {e : Expr}
    (hv : a.label? v = some (.leaf (.input column))) (he : a.Unfolds i e) (hd : 0 < e.degree) :
    ∃ k b, sub (.circuit ⟨a.name, v⟩) (.circuit ⟨a.name, i⟩) a = .ok k b ∧ a.Extends b ∧
      b.Subtracts k column i := by
  obtain ⟨k, b, m, n, hsub, hab, hm, hn, hk⟩ := sub_spec (.leaf hv) he Nat.one_pos hd
  exact ⟨k, b, hsub, hab, v, n, hab.label? hv, ⟨m, hm, hn⟩, hk⟩

/-! ## Reading -/

namespace Circuit

variable {c x y : Circuit} {i l r : Nat} {cell : Cell}

theorem any_isMinusOne {a : Arena} :
    (a.circuit? i).any isMinusOne = true ↔
      a.label? i = some (.leaf (.constant (.base .minusOne))) := by
  by_cases hi : i < a.size
  · obtain ⟨c, hc⟩ := Arena.exists_circuit? hi
    obtain ⟨rfl, rfl⟩ := Arena.circuit?_eq_some.1 hc
    simp [hc, isMinusOne, label?_id]
  · have hnone : a.circuit? i = none := dif_neg hi
    rw [hnone]
    exact ⟨nofun, fun h => absurd (Arena.lt_of_label? h) hi⟩

theorem negated?_of_left (hc : c.node.label = .binary .mul l r)
    (hl : c.arena.label? l = some (.leaf (.constant (.base .minusOne)))) : c.negated? = some r := by
  simp [negated?, hc, any_isMinusOne.2 hl]

theorem negated?_of_right (hc : c.node.label = .binary .mul l r)
    (hr : c.arena.label? r = some (.leaf (.constant (.base .minusOne)))) : c.negated? = some l := by
  -- two constant factors would have been folded
  have hl : ¬ (c.arena.circuit? l).any isMinusOne = true := by
    rw [any_isMinusOne]
    exact fun hl => Arena.not_constant_operands (hc ▸ c.label?_id) hl hr
  simp [negated?, hc, any_isMinusOne.2 hr, hl]

theorem negated?_eq_some_iff : c.negated? = some i ↔ c.arena.Negates c.id i := by
  have hlabel := c.label?_id
  constructor
  · intro h
    unfold negated? at h
    split at h
    · rename_i l r hc
      rw [hc] at hlabel
      split at h
      · rename_i hl
        cases h
        exact ⟨l, any_isMinusOne.1 hl, .inl hlabel⟩
      · split at h
        · rename_i hr
          cases h
          exact ⟨r, any_isMinusOne.1 hr, .inr hlabel⟩
        · cases h
    · cases h
  · rintro ⟨m, hm, hc | hc⟩
    · rw [hlabel, Option.some.injEq] at hc
      exact negated?_of_left hc hm
    · rw [hlabel, Option.some.injEq] at hc
      exact negated?_of_right hc hm

theorem cell?_eq_some_iff : c.cell? = some cell ↔
    c.arena.label? c.id = some (.leaf (.input cell)) := by
  rw [c.label?_id, Option.some.injEq, cell?]
  split
  · rename_i cell' hc
    simp [hc]
  · rename_i hc
    exact ⟨nofun, fun h => absurd h (hc cell)⟩

theorem difference?_eq_some_iff : x.difference? y = some (cell, i) ↔
    x.arena.label? x.id = some (.leaf (.input cell)) ∧ y.arena.Negates y.id i := by
  rw [← cell?_eq_some_iff, ← negated?_eq_some_iff, difference?]
  cases x.cell? <;> cases y.negated? <;> simp

/-- A product is no cell, so it is not taken for the column. -/
theorem difference?_eq_none (h : x.arena.Negates x.id i) : x.difference? y = none := by
  rw [Option.eq_none_iff_forall_ne_some]
  rintro ⟨cell, j⟩ hx
  have hcell := (difference?_eq_some_iff.1 hx).1
  obtain ⟨m, -, hn | hn⟩ := h <;> rw [hcell] at hn <;> cases hn

end Circuit

namespace Rule

variable {c x y : Circuit} {l r : Nat} {rule : Rule}

/-- The first operand is taken for the column if it can be, then the second. -/
theorem ofCircuit_add (hc : c.node.label = .binary .add l r) (hx : c.arena.circuit? l = some x)
    (hy : c.arena.circuit? r = some y) :
    ofCircuit c = (x.difference? y <|> y.difference? x).elim
      (.error (.notSubtraction c.text)) fun p => .ok ⟨p.1, p.2, c.id⟩ := by
  simp only [ofCircuit, hc, hx, hy]
  cases x.difference? y <|> y.difference? x <;> rfl

theorem ofCircuit_of_ne_add (hc : ∀ l r, c.node.label ≠ .binary .add l r) :
    ofCircuit c = .error (.notSubtraction c.text) := by
  unfold ofCircuit
  split
  · rename_i l r hlabel
    exact absurd hlabel (hc l r)
  · rfl

/-- Of the two operands of a sum, one is the column and the other the product with minus one. -/
theorem difference?_or_iff (hc : c.node.label = .binary .add x.id y.id) (hx : x.arena = c.arena)
    (hy : y.arena = c.arena) {column : Cell} {i : Nat} :
    (x.difference? y <|> y.difference? x) = some (column, i) ↔ c.arena.Subtracts c.id column i := by
  have hlabel : c.arena.label? c.id = some (.binary .add x.id y.id) := hc ▸ c.label?_id
  constructor
  · intro h
    cases hd : x.difference? y with
    | some p =>
      rw [hd] at h
      cases h
      obtain ⟨hcell, hneg⟩ := Circuit.difference?_eq_some_iff.1 hd
      exact ⟨x.id, y.id, hx ▸ hcell, hy ▸ hneg, .inl hlabel⟩
    | none =>
      rw [hd] at h
      obtain ⟨hcell, hneg⟩ := Circuit.difference?_eq_some_iff.1 h
      exact ⟨y.id, x.id, hy ▸ hcell, hx ▸ hneg, .inr hlabel⟩
  · rintro ⟨v, n, hv, hn, hk | hk⟩
    · rw [hlabel] at hk
      cases hk
      rw [Circuit.difference?_eq_some_iff.2 ⟨hx ▸ hv, hy ▸ hn⟩]
      rfl
    · rw [hlabel] at hk
      cases hk
      rw [Circuit.difference?_eq_none (hx ▸ hn)]
      exact Circuit.difference?_eq_some_iff.2 ⟨hy ▸ hv, hx ▸ hn⟩

/-- What is found in a constraint is the difference that it is. -/
theorem exists_ofCircuit_eq (c : Circuit) : ∃ found : Option (Cell × Nat),
    ofCircuit c = found.elim (.error (.notSubtraction c.text)) (fun p => .ok ⟨p.1, p.2, c.id⟩) ∧
      ∀ column i, found = some (column, i) ↔ c.arena.Subtracts c.id column i := by
  by_cases hadd : ∃ l r, c.node.label = .binary .add l r
  · obtain ⟨l, r, hc⟩ := hadd
    obtain ⟨hl, hr⟩ := Circuit.child_lt hc
    obtain ⟨x, hx⟩ := Arena.exists_circuit? (a := c.arena) (hl.trans c.isLt)
    obtain ⟨y, hy⟩ := Arena.exists_circuit? (a := c.arena) (hr.trans c.isLt)
    obtain ⟨hxa, rfl⟩ := Arena.circuit?_eq_some.1 hx
    obtain ⟨hya, rfl⟩ := Arena.circuit?_eq_some.1 hy
    exact ⟨_, ofCircuit_add hc hx hy, fun _ _ => difference?_or_iff hc hxa hya⟩
  · have hne : ∀ l r, c.node.label ≠ .binary .add l r := fun l r hc => hadd ⟨l, r, hc⟩
    refine ⟨none, ofCircuit_of_ne_add hne, fun column i => ⟨nofun, fun h => ?_⟩⟩
    obtain ⟨v, n, -, -, hk | hk⟩ := h <;> rw [c.label?_id, Option.some.injEq] at hk <;>
      exact absurd hk (hne _ _)

/-- A constraint is read as a rule if and only if it is a difference, and then as the difference
that it is. -/
theorem ofCircuit_eq_ok_iff :
    ofCircuit c = .ok rule ↔ c.arena.Subtracts c.id rule.column rule.expression ∧
      rule.constraint = c.id := by
  obtain ⟨found, heq, hfound⟩ := exists_ofCircuit_eq c
  obtain ⟨column, expression, constraint⟩ := rule
  rw [heq, ← hfound]
  cases found with
  | none => simp
  | some p => simp [Prod.ext_iff, and_assoc, eq_comm]

theorem ofCircuit_eq_error (h : ¬ ∃ column i, c.arena.Subtracts c.id column i) :
    ofCircuit c = .error (.notSubtraction c.text) := by
  obtain ⟨found, heq, hfound⟩ := exists_ofCircuit_eq c
  cases found with
  | none => exact heq
  | some p => exact absurd ⟨p.1, p.2, (hfound p.1 p.2).1 rfl⟩ h

end Rule

/-! ## Unwinding -/

namespace Arena

/-- Which constraints of an arena are read as rules, and as which. -/
structure Unwinds (a : Arena) : Prop where
  /-- The constraints that are read are the differences of a cell and a node. -/
  read_iff : ∀ c : Circuit, c.arena = a →
    ((∃ rule, Rule.ofCircuit c = .ok rule) ↔ ∃ column i, a.Subtracts c.id column i)
  /-- All others break an invariant of the compiler. -/
  refused : ∀ c : Circuit, c.arena = a → (¬ ∃ column i, a.Subtracts c.id column i) →
    ∃ e, Rule.ofCircuit c = .error e ∧ e.isInvariant = true
  /-- What is read has the value of the constraint. -/
  sound : ∀ (c : Circuit) (rule : Rule), c.arena = a → Rule.ofCircuit c = .ok rule →
    rule.constraint = c.id ∧
    ∃ d, a.circuit? rule.expression = some d ∧
      ∀ ρ, c.expr.value ρ = ρ.cell rule.column - d.expr.value ρ
  /-- The difference of a cell and a node that is no constant is read as their difference, whatever
  nodes there were before. -/
  complete : ∀ (v i : Nat) (column : Cell), a.label? v = some (.leaf (.input column)) → i < a.size →
    (∀ s, a.label? i ≠ some (.leaf (.constant s))) →
    ∃ k b c, Build.sub (.circuit ⟨a.name, v⟩) (.circuit ⟨a.name, i⟩) a = .ok k b ∧
      b.circuit? k = some c ∧ Rule.ofCircuit c = .ok ⟨column, i, k⟩

/-- Reading a constraint as a rule finds every difference of a cell and a node, in every arena, and
nothing else. -/
theorem unwinds (a : Arena) : a.Unwinds where
  read_iff c hc := by
    subst hc
    constructor
    · rintro ⟨rule, h⟩
      exact ⟨rule.column, rule.expression, (Rule.ofCircuit_eq_ok_iff.1 h).1⟩
    · rintro ⟨column, i, h⟩
      exact ⟨⟨column, i, c.id⟩, Rule.ofCircuit_eq_ok_iff.2 ⟨h, rfl⟩⟩
  refused c hc hnot := by
    subst hc
    exact ⟨_, Rule.ofCircuit_eq_error hnot, rfl⟩
  sound c rule hc h := by
    subst hc
    obtain ⟨hsub, hconstraint⟩ := Rule.ofCircuit_eq_ok_iff.1 h
    obtain ⟨d, hd⟩ := exists_circuit? hsub.operand_lt
    obtain ⟨e, he⟩ := exists_unfolds hsub.operand_lt
    refine ⟨hconstraint, d, hd, fun ρ => ?_⟩
    rw [hsub.value_eq he c.unfolds_expr, he.expr_eq hd]
  complete v i column hv hi hne := by
    obtain ⟨e, he⟩ := exists_unfolds hi
    obtain ⟨k, b, hsub, -, hk⟩ := Build.sub_subtracts hv he (he.degree_pos hne)
    obtain ⟨c, hc⟩ := exists_circuit? hk.lt
    obtain ⟨rfl, rfl⟩ := circuit?_eq_some.1 hc
    exact ⟨_, _, c, hsub, hc, Rule.ofCircuit_eq_ok_iff.2 ⟨hk, rfl⟩⟩

-- the product with minus one and the sum are there already, both in the other order
example : (match (do
      let v ← Build.input ⟨.current, .main, 0⟩
      let e ← Build.combine .mul v v
      let n ← Build.combine .mul e (← Build.minusOne)
      let _ ← Build.combine .add n v
      Build.difference v e : Build Nat) (.empty 0) with
    | .ok k b => (b.circuit? k).bind fun c => (Rule.ofCircuit c).toOption
    | .error _ _ => none) = some ⟨⟨.current, .main, 0⟩, 1, 4⟩ := by decide +kernel

end Arena

end AirCompiler
