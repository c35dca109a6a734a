import AirCompiler.Proofs.System.Buckets
import AirCompiler.System.Samples

/-!
# When a system is lowered

`ConstraintSystem.Refuses target s e`: the cause `e` stands against lowering `s` to the target
degree. The causes are a constraint of another arena, a constraint that looks at the next row where
its role has none, and a target below two.

* `refuses_of_validate`: a system that fails validation fails for such a cause.
* `lower_total`: with such a cause lowering fails and leaves the system as it is; otherwise it
  succeeds, and all constraints and rules have the target degree at most.
-/

namespace AirCompiler

namespace ConstraintSystem

variable {s : ConstraintSystem} {target : Int}

/-- Every constraint that claims to belong to the arena is one of its nodes. -/
def Closed (s : ConstraintSystem) : Prop :=
  ∀ role, ∀ x ∈ s.buckets.get role, x.owner = s.arena.name → x.id < s.arena.size

/-- What stands against lowering, with the error that reports it. -/
inductive Refuses (target : Int) (s : ConstraintSystem) : CompileError → Prop
  | foreign {role : Role} {index : Nat} {x : Handle} : (s.buckets.get role)[index]? = some x →
      x.owner ≠ s.arena.name → Refuses target s (.foreignConstraint role index)
  | nextRow {role : Role} {index : Nat} {x : Handle} {e : Expr} {cell : Cell} : role ≠ .transition →
      (s.buckets.get role)[index]? = some x → s.arena.Unfolds x.id e →
      .input cell ∈ e.vars → cell.row = .next → Refuses target s (.nextRowConstraint role index)
  | lowTarget : target < 2 → Refuses target s (.targetDegree target)

theorem isDualRow_eq_false {role : Role} : role.isDualRow = false ↔ role ≠ .transition := by
  cases role <;> simp [Role.isDualRow]

/-- A check that fails gives the cause. -/
theorem refuses_of_checkConstraint (hs : s.Closed) {role : Role} {index : Nat}
    {x : Handle} {e : CompileError} (hx : (s.buckets.get role)[index]? = some x)
    (h : s.checkConstraint role index x = .error e) : s.Refuses target e := by
  unfold checkConstraint at h
  split at h
  · rename_i ho
    cases h
    exact .foreign hx ho
  · rename_i ho
    rw [not_ne_iff] at ho
    obtain ⟨c, hc⟩ := Arena.exists_circuit? (hs role x (List.mem_of_getElem? hx) ho)
    obtain ⟨ha, hi⟩ := Arena.circuit?_eq_some.1 hc
    simp only [hc] at h
    split at h
    · rename_i hn
      rw [Bool.and_eq_true, Bool.not_eq_true', isDualRow_eq_false, Circuit.usesNextRow_iff] at hn
      obtain ⟨hrole, cell, hrow, hm⟩ := hn
      cases h
      exact .nextRow hrole hx (by rw [← ha, ← hi]; exact c.unfolds_expr) hm hrow
    · cases h

theorem refuses_of_validate (hs : s.Closed) {e : CompileError} (h : s.validate = .error e) :
    s.Refuses target e := by
  obtain ⟨role, -, hrole⟩ := exists_of_forM_eq_error h
  obtain ⟨⟨x, index⟩, hx, hcheck⟩ := exists_of_forM_eq_error hrole
  exact refuses_of_checkConstraint hs (List.mem_zipIdx_iff_getElem?.1 hx) hcheck

/-- Nothing but a low target stands against a system that passes validation. -/
theorem Refuses.target_lt {e : CompileError} (h : s.Refuses target e) (hv : s.validate = .ok ()) :
    target < 2 := by
  cases h with
  | foreign hx ho =>
    have h := checkConstraint_of_validate hv hx
    rw [checkConstraint, if_pos ho] at h
    cases h
  | @nextRow role _ x e cell hrole hx he hm hrow =>
    obtain ⟨c, hc, hnext⟩ := validate_eq_ok hv (List.mem_of_getElem? hx)
    obtain ⟨ha, hi⟩ := Arena.circuit?_eq_some.1 hc
    obtain rfl : c.expr = e := Circuit.expr_of_unfolds (by rw [ha, hi]; exact he)
    have huses := Circuit.usesNextRow_iff.2 ⟨cell, hrow, hm⟩
    rw [hnext (isDualRow_eq_false.2 hrole)] at huses
    cases huses
  | lowTarget ht => exact ht

theorem lower_of_validate_error {e : CompileError} (h : s.validate = .error e) :
    lower target s = .error e s := by
  unfold lower
  simp only [h, bind, Except.bind]

theorem lower_of_target_lt (hv : s.validate = .ok ()) (ht : target < 2) :
    lower target s = .error (.targetDegree target) s := by
  have hneg : ¬ 2 ≤ target := by omega
  unfold lower
  simp [hv, Limits.check, hneg, bind, Except.bind]

/-- What is left of the constraints of a bucket: as many as before, and like the rules of the target
degree at most. -/
structure Lowers (target : Int) (s s' : ConstraintSystem) (subs : Substitutions)
    (role : Role) : Prop where
  length_eq : (s'.buckets.get role).length = (s.buckets.get role).length
  constraint_le : ∀ x ∈ s'.buckets.get role, ∃ c, s'.arena.circuit? x.id = some c ∧
    (c.degree : Int) ≤ target
  rule_le : ∀ rule ∈ subs.rules.get role, ∃ c, s'.arena.circuit? rule.constraint = some c ∧
    (c.degree : Int) ≤ target

theorem exists_circuit?_of_degreeLe {a : Arena} {i : Nat} (h : a.DegreeLe target i) :
    ∃ c, a.circuit? i = some c ∧ (c.degree : Int) ≤ target := by
  obtain ⟨e, he, hd⟩ := h
  obtain ⟨c, hc, rfl⟩ := he.exists_circuit
  rw [← c.degree_eq] at hd
  exact ⟨c, hc, hd⟩

/-- Lowering fails for a cause that stands against it, and then leaves everything as it was, or else
it succeeds and meets the target degree. -/
theorem lower_total (target : Int) {s : ConstraintSystem} (hs : s.Closed) :
    (∃ e, s.Refuses target e ∧ lower target s = .error e s) ∨
      (∀ e, ¬ s.Refuses target e) ∧
        ∃ subs s', lower target s = .ok subs s' ∧ ∀ role, s.Lowers target s' subs role := by
  cases hv : s.validate with
  | error e => exact .inl ⟨e, refuses_of_validate hs hv, lower_of_validate_error hv⟩
  | ok =>
    by_cases ht : target < 2
    · exact .inl ⟨_, .lowTarget ht, lower_of_target_lt hv ht⟩
    · refine .inr ⟨fun e he => ht (he.target_lt hv), ?_⟩
      have h2 : 2 ≤ target := by omega
      obtain ⟨subs, s', limits, hrun, hstage⟩ :=
        exists_lower_of_validate hv (by rw [Limits.check, dif_pos h2])
      refine ⟨subs, s', hrun, fun role => ?_⟩
      obtain ⟨hconstraints, hrules⟩ := hstage.bounded role role.mem_all
      exact ⟨(hstage.bucket role role.mem_all).2.length_eq.symm,
        fun x hx => exists_circuit?_of_degreeLe (hconstraints x hx),
        fun rule hr => exists_circuit?_of_degreeLe (hrules rule hr)⟩

/-- All buckets of `synthetic` take rounds to come down to degree two. -/
theorem lower_total_synthetic :
    synthetic.Closed ∧ (∀ role, 2 < maxDegree (synthetic.circuits role)) ∧
      ∃ subs s', lower 2 synthetic = .ok subs s' ∧ ∀ role, synthetic.Lowers 2 s' subs role := by
  obtain ⟨hroles, hv⟩ : (∀ role ∈ Role.all,
      (∀ x ∈ synthetic.buckets.get role, x.owner = synthetic.arena.name →
        x.id < synthetic.arena.size) ∧
        2 < maxDegree (synthetic.circuits role)) ∧ synthetic.validate = .ok () := by decide +kernel
  have hs : synthetic.Closed := fun role => (hroles role role.mem_all).1
  refine ⟨hs, fun role => (hroles role role.mem_all).2, ?_⟩
  rcases lower_total 2 hs with ⟨e, he, -⟩ | ⟨-, h⟩
  · have := he.target_lt hv
    omega
  · exact h

end ConstraintSystem

end AirCompiler
