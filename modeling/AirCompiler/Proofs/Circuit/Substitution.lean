import AirCompiler.Proofs.Circuit.Canonical
import AirCompiler.Proofs.Circuit.Rewriting
import AirCompiler.Proofs.Evaluation.Bucket
import AirCompiler.Proofs.Sharing.Paths

/-!
# What substitution means

`Arena.evalGiven a rows target given i` is the value of node `i` on the rows when node `target` has
the value `given`, whatever stands below it; all other nodes are evaluated as usual. Substituting a
circuit for the target is evaluating with its value given:

* `Rebuilt.Sound.eval_eq`: what an id became has the value of the id, the value of the replacement
  given. Rebuilding may swap operands and fold constants; neither changes a value nor a failure
  (`Combines.eval_eq`).
* `Rebuilt.Sound.id_eq`: an id that does not reach the target became itself. Its operands did, and
  an arena has one node for an operation on them (`Arena.Joins.eq_of_label?`).
* `Build.substitute_replaces`: so substitution replaces a node by a value.
-/

namespace AirCompiler

/-! ## Evaluation with a given value -/

namespace Arena

/-- The value of a node, when the target has the given one. -/
def evalGiven (a : Arena) (rows : Rows) (target : Int) (given : Except EvalError Scalar) (i : Nat) :
    Except EvalError Scalar :=
  if i = target then given
  else
    match _ : a.label? i with
    | none => .error .unbound
    | some (.leaf x) => x.eval rows
    | some (.binary op l r) => do
      let x ← a.evalGiven rows target given l
      let y ← a.evalGiven rows target given r
      return op.apply x y
termination_by i
decreasing_by
  · rename_i h
    exact (operands_lt h).1
  · rename_i h
    exact (operands_lt h).2

variable {a b : Arena} {rows : Rows} {target : Int} {given : Except EvalError Scalar} {i : Nat}

theorem evalGiven_target (h : i = target) : a.evalGiven rows target given i = given := by
  rw [evalGiven, if_pos h]

theorem evalGiven_leaf (h : i ≠ target) {x : Leaf} (hl : a.label? i = some (.leaf x)) :
    a.evalGiven rows target given i = x.eval rows := by
  rw [evalGiven, if_neg h]
  split
  · rename_i hnone
    rw [hl] at hnone
    cases hnone
  · rename_i hleaf
    rw [hl] at hleaf
    cases hleaf
    rfl
  · rename_i hbinary
    rw [hl] at hbinary
    cases hbinary

theorem evalGiven_binary (h : i ≠ target) {op : Op} {l r : Nat}
    (hl : a.label? i = some (.binary op l r)) : a.evalGiven rows target given i = (do
      let x ← a.evalGiven rows target given l
      let y ← a.evalGiven rows target given r
      return op.apply x y) := by
  rw [evalGiven, if_neg h]
  split
  · rename_i hnone
    rw [hl] at hnone
    cases hnone
  · rename_i hleaf
    rw [hl] at hleaf
    cases hleaf
  · rename_i hbinary
    rw [hl] at hbinary
    cases hbinary
    rfl

/-- An arena that grows keeps the values of its nodes. -/
theorem Extends.evalGiven_eq (hab : a.Extends b) (hi : i < a.size) :
    b.evalGiven rows target given i = a.evalGiven rows target given i := by
  obtain ⟨e, he⟩ := exists_unfolds hi
  induction he with
  | @leaf i x hl =>
    by_cases h : (i : Int) = target
    · rw [evalGiven_target h, evalGiven_target h]
    · rw [evalGiven_leaf h hl, evalGiven_leaf h (hab.label? hl)]
  | @operation i l r op x y hl hx hy ihx ihy =>
    by_cases h : (i : Int) = target
    · rw [evalGiven_target h, evalGiven_target h]
    · rw [evalGiven_binary h hl, evalGiven_binary h (hab.label? hl), ihx hx.lt, ihy hy.lt]

end Arena

/-! ## Rebuilt operations -/

section

variable {a : Arena} {i j : Nat} {x y z : Expr}

/-- A tree has a value on the rows, or an index is beyond them. -/
theorem Arena.Unfolds.eval_cases (h : a.Unfolds i x) (rows : Rows) :
    (∃ s, x.eval rows ∅ = .ok s) ∨ x.eval rows ∅ = .error .outOfRange := by
  by_cases hr : ∀ v ∈ x.vars, v.Readable rows
  · obtain ⟨s, hs, -⟩ := h.eval_of_readable hr
    exact .inl ⟨s, hs⟩
  · exact .inr (h.eval_of_not_readable hr)

/-- Combined trees are evaluated like the operation on them. -/
theorem Combines.eval_eq {op : Op} (h : Combines op x y z) (hx : a.Unfolds i x)
    (hy : a.Unfolds j y) (rows : Rows) : z.eval rows ∅ = (do
      let s ← x.eval rows ∅
      let t ← y.eval rows ∅
      return op.apply s t) := by
  cases h with
  | straight => rfl
  | swapped =>
    rw [Expr.eval]
    -- there is one way to fail, so it does not matter which operand is evaluated first
    rcases hx.eval_cases rows with ⟨s, hs⟩ | hs
    · rcases hy.eval_cases rows with ⟨t, ht⟩ | ht
      · rw [hs, ht]
        exact congrArg Except.ok (op.apply_comm t s)
      · rw [hs, ht]
        rfl
    · rcases hy.eval_cases rows with ⟨t, ht⟩ | ht
      · rw [hs, ht]
        rfl
      · rw [hs, ht]
  | folded => rfl

/-- An arena has one node for an operation on two nodes. -/
theorem Arena.Joins.eq_of_label? {op : Op} {l r k : Nat} (h : a.Joins op l r k)
    (hl : a.label? i = some (.binary op l r)) : k = i := by
  obtain hk | hk | ⟨s, t, hs, ht, -⟩ := h
  · exact label?_inj hk hl
  · exact a.oriented op r l k i hk hl
  · exact absurd ht (not_constant_operands hl hs)

end

namespace Rebuilt.Sound

variable {a : Arena} {target : Int} {v i : Nat} {done : Rebuilt} {x : Handle}

/-- What an id became has the value of the id, when the target has the value of the replacement. -/
theorem eval_eq (h : Sound a target v done) {w : Expr} (hw : a.Unfolds v w)
    (hx : done[i]? = some x) (rows : Rows) :
    ∃ e, a.Unfolds x.id e ∧ e.eval rows ∅ = a.evalGiven rows target (w.eval rows ∅) i := by
  induction i using Nat.strongRecOn generalizing x with
  | ind i ih =>
    by_cases hi : (i : Int) = target
    · obtain ⟨y, hy, rfl⟩ := h.replaced i hi
      rw [hx, Option.some.injEq] at hy
      exact ⟨w, hy ▸ hw, (Arena.evalGiven_target hi).symm⟩
    · cases h.rebuilt i x hx hi with
      | leaf hl => exact ⟨_, .leaf hl, (Arena.evalGiven_leaf hi hl).symm⟩
      | joined hl hy hz hjoin =>
        obtain ⟨hlt, hrt⟩ := Arena.operands_lt hl
        obtain ⟨e, he, heval⟩ := ih _ hlt hy
        obtain ⟨f, hf, hfval⟩ := ih _ hrt hz
        obtain ⟨g, hg, hcomb⟩ := hjoin.unfolds he hf
        exact ⟨g, hg, by rw [hcomb.eval_eq he hf, heval, hfval, Arena.evalGiven_binary hi hl]⟩

/-- An id that does not reach the target became itself. -/
theorem id_eq (h : Sound a target v done) (hx : done[i]? = some x)
    (hi : ∀ j : Nat, a.Reaches i j → j ≠ target) : x.id = i := by
  induction i using Nat.strongRecOn generalizing x with
  | ind i ih =>
    cases h.rebuilt i x hx (hi i .refl) with
    | leaf => rfl
    | joined hl hy hz hjoin =>
      obtain ⟨hlt, hrt⟩ := Arena.operands_lt hl
      have hleft := ih _ hlt hy fun j hj => hi j ((Arena.reaches_binary hl).2 (.inr (.inl hj)))
      have hright := ih _ hrt hz fun j hj => hi j ((Arena.reaches_binary hl).2 (.inr (.inr hj)))
      rw [hleft, hright] at hjoin
      exact hjoin.eq_of_label? hl

end Rebuilt.Sound

/-! ## Substitution -/

namespace Build

/-- In every arena a substitution for any id, by any circuit of the arena, returns a circuit for
each root. On all rows it has the value that the root has when the node of the id has the value of
the replacement. A root that does not reach the id is returned as it is. -/
theorem substitute_replaces (a : Arena) (roots : List Circuit) (hroots : ∀ c ∈ roots, c.arena = a)
    (target : Int) (replacement : Circuit) (hr : replacement.arena = a) :
    ∃ hs b, substitute (roots.map Circuit.id) target replacement.handle a = .ok hs b ∧ a.Extends b ∧
      hs.length = roots.length ∧ List.Forall₂ (fun root h =>
        (∃ c, b.circuit? h.id = some c ∧ c.handle = h ∧
          ∀ rows,
            c.expr.eval rows ∅ = a.evalGiven rows target (replacement.expr.eval rows ∅) root.id) ∧
        ((∀ j : Nat, a.Reaches root.id j → j ≠ target) → h.id = root.id)) roots hs := by
  have hlt : ∀ i ∈ roots.map Circuit.id, i < a.size := by
    intro i hi
    obtain ⟨c, hc, rfl⟩ := List.mem_map.1 hi
    exact hroots c hc ▸ c.isLt
  obtain ⟨done, hs, b, hrun, hab, hdone, hforall⟩ :=
    substitute_spec (roots.map Circuit.id) hlt target
      (hr ▸ replacement.isLt : replacement.id < a.size)
  rw [List.forall₂_map_left_iff] at hforall
  refine ⟨hs, b, by rw [Circuit.handle, hr, hrun], hab, hforall.length_eq.symm, ?_⟩
  have hw : b.Unfolds replacement.id replacement.expr := hab.unfolds (hr ▸ replacement.unfolds_expr)
  refine ((List.forall₂_and_left _ _).2 ⟨hroots, hforall⟩).imp ?_
  rintro root h ⟨hroot, hx⟩
  have hsize : root.id < a.size := hroot ▸ root.isLt
  refine ⟨?_, fun hreach => hdone.id_eq hx fun j hj => hreach j ((hab.reaches_iff hsize).1 hj)⟩
  obtain ⟨c, hc⟩ := Arena.exists_circuit? (hdone.lt hx)
  obtain ⟨hca, hci⟩ := Arena.circuit?_eq_some.1 hc
  refine ⟨c, hc, ?_, fun rows => ?_⟩
  · rw [Circuit.handle, hca, hci, ← hdone.owner _ _ hx]
  · obtain ⟨e, he, heval⟩ := hdone.eval_eq hw hx rows
    rw [he.expr_eq hc, heval, hab.evalGiven_eq hsize]

/-- The transition constraints of `fibonacci`, with a circuit that reaches node 2 in the place of
node 2. The second of them does not reach it. -/
theorem substitute_replaces_fibonacci :
    let s := ConstraintSystem.fibonacci
    let roots := s.circuits .transition
    ∃ replacement : Circuit, replacement.arena = s.arena ∧ s.arena.Reaches replacement.id 2 ∧
      (∀ c ∈ roots, c.arena = s.arena) ∧
      ∃ hs b, substitute (roots.map Circuit.id) 2 replacement.handle s.arena = .ok hs b ∧
        s.arena.Extends b ∧
        roots.map Circuit.id = [14, 17, 21] ∧ hs.map Handle.id = [22, 17, 25] ∧
        hs.length = roots.length ∧ List.Forall₂ (fun root h =>
          (∃ c, b.circuit? h.id = some c ∧ c.handle = h ∧
            ∀ rows, c.expr.eval rows ∅ =
              s.arena.evalGiven rows 2 (replacement.expr.eval rows ∅) root.id) ∧
          ((∀ j : Nat, s.arena.Reaches root.id j → (j : Int) ≠ 2) → h.id = root.id)) roots hs := by
  intro s roots
  have hroots : ∀ c ∈ roots, c.arena = s.arena :=
    fun c hc => ConstraintSystem.arena_of_mem_circuits hc
  have hreach : s.arena.Reaches 20 2 :=
    .head ⟨.mul, 8, 19, by decide +kernel, .inr rfl⟩
      (.single ⟨.add, 18, 2, by decide +kernel, .inr rfl⟩)
  obtain ⟨hs, b, hrun, hids⟩ : ∃ hs b,
      substitute (roots.map Circuit.id) 2 ⟨s.arena.name, 20⟩ s.arena = .ok hs b ∧
      hs.map Handle.id = [22, 17, 25] := exists_ok (by decide +kernel)
  obtain ⟨hs', b', hrun', hab, hlength, hforall⟩ :=
    substitute_replaces s.arena roots hroots 2 ⟨s.arena, 20, by decide +kernel⟩ rfl
  obtain ⟨rfl, rfl⟩ := EStateM.Result.ok.inj (hrun.symm.trans hrun')
  exact ⟨⟨s.arena, 20, by decide +kernel⟩, rfl, hreach, hroots, hs, b, hrun, hab, by decide +kernel,
    hids, hlength, hforall⟩

end Build

end AirCompiler
