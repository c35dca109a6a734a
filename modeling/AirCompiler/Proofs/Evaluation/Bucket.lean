import AirCompiler.Evaluation.Bucket
import AirCompiler.Proofs.Sharing.Plan
import AirCompiler.System.Samples

/-!
# Evaluation code computes the constraints

The evaluation code of a bucket binds shared nodes before it evaluates the constraints. What it
computes is what the trees of the constraints compute:

* `Arena.Unfolds.eval_of_readable`, `Arena.Unfolds.eval_of_not_readable`: a tree has a value if and
  only if its variables can be read, and then it is `Expr.value` under the assignment that the rows
  are (`Rows.assignment`).
* `eval_expr?`: with the shared nodes bound to their values, the expression of a node has the value
  of its tree.
* `BucketEvaluation.exists_ofCircuits`: constraints of one arena have evaluation code.
* `BucketEvaluation.eval_of_readable`, `BucketEvaluation.eval_of_not_readable`: its outputs have the
  values of their trees.
* `BucketEvaluation.eval_faithful`: so sharing nodes neither changes a value nor adds or hides a
  failure.
-/

namespace AirCompiler

/-! ## Trees -/

/-- The rows as an assignment. Entries beyond their ends are zero. -/
def Rows.assignment (rows : Rows) : Assignment where
  cell c := ((itemAt? (rows.row c.row c.table) c.column).map Scalar.lift).getD 0
  challenge i := ((itemAt? rows.challenges i).map Scalar.lift).getD 0

/-- The rows have an entry for the variable. -/
def Leaf.Readable (rows : Rows) (x : Leaf) : Prop := ∃ s, x.eval rows = .ok s

theorem Leaf.lift_of_eval {rows : Rows} {x : Leaf} {s : Scalar} (h : x.eval rows = .ok s) :
    s.lift = x.value rows.assignment := by
  cases x with
  | constant t => cases h; rfl
  | input c =>
    simp only [eval] at h
    simp only [value, Rows.assignment]
    cases hi : itemAt? (rows.row c.row c.table) c.column with
    | none => rw [hi] at h; cases h
    | some t => rw [hi] at h; cases h; rfl
  | challenge i =>
    simp only [eval] at h
    simp only [value, Rows.assignment]
    cases hi : itemAt? rows.challenges i with
    | none => rw [hi] at h; cases h
    | some t => rw [hi] at h; cases h; rfl

theorem Leaf.eval_of_not_readable {rows : Rows} {x : Leaf} (h : ¬ x.Readable rows) :
    x.eval rows = .error .outOfRange := by
  cases x with
  | constant t => exact absurd ⟨t, rfl⟩ h
  | input c =>
    simp only [Readable, eval] at h ⊢
    cases hi : itemAt? (rows.row c.row c.table) c.column with
    | none => rfl
    | some t => exact absurd ⟨t, by rw [hi]; rfl⟩ h
  | challenge i =>
    simp only [Readable, eval] at h ⊢
    cases hi : itemAt? rows.challenges i with
    | none => rfl
    | some t => exact absurd ⟨t, by rw [hi]; rfl⟩ h

namespace Arena.Unfolds

variable {a : Arena} {i : Nat} {e : Expr} {rows : Rows}

theorem eval_of_readable (h : a.Unfolds i e) (hr : ∀ x ∈ e.vars, x.Readable rows) :
    ∃ s, e.eval rows ∅ = .ok s ∧ s.lift = e.value rows.assignment := by
  induction h with
  | @leaf i x _ =>
    have hx : x.Readable rows := by
      cases x with
      | constant s => exact ⟨s, rfl⟩
      | input c => exact hr _ (by simp [Expr.vars])
      | challenge j => exact hr _ (by simp [Expr.vars])
    obtain ⟨s, hs⟩ := hx
    exact ⟨s, hs, Leaf.lift_of_eval hs⟩
  | @operation i l r op x y _ _ _ ihx ihy =>
    obtain ⟨s, hs, hsv⟩ := ihx fun v hv => hr v (List.mem_append_left _ hv)
    obtain ⟨t, ht, htv⟩ := ihy fun v hv => hr v (List.mem_append_right _ hv)
    refine ⟨op.apply s t, ?_, ?_⟩
    · rw [Expr.eval, hs, ht]
      rfl
    · rw [op.lift_apply, hsv, htv, Expr.value]

theorem eval_of_not_readable (h : a.Unfolds i e) (hr : ¬ ∀ x ∈ e.vars, x.Readable rows) :
    e.eval rows ∅ = .error .outOfRange := by
  induction h with
  | @leaf i x _ =>
    have hx : ¬ x.Readable rows := fun hx => hr fun y hy => Expr.mem_vars_leaf hy ▸ hx
    exact Leaf.eval_of_not_readable hx
  | @operation i l r op f g _ hf _ ihf ihg =>
    by_cases hall : ∀ v ∈ f.vars, v.Readable rows
    · obtain ⟨s, hs, -⟩ := hf.eval_of_readable hall
      have hg : ¬ ∀ v ∈ g.vars, v.Readable rows :=
        fun hg => hr fun v hv => (List.mem_append.1 hv).elim (hall v) (hg v)
      rw [Expr.eval, hs, ihg hg]
      rfl
    · rw [Expr.eval, ihf hall]
      rfl

end Arena.Unfolds

theorem Circuit.evalLifted_of_readable {c : Circuit} {rows : Rows}
    (hr : ∀ x ∈ c.expr.vars, x.Readable rows) :
    c.expr.evalLifted rows ∅ = .ok (c.expr.value rows.assignment) := by
  obtain ⟨s, hs, hv⟩ := c.unfolds_expr.eval_of_readable hr
  rw [Expr.evalLifted, hs, ← hv]
  rfl

theorem Circuit.evalLifted_of_not_readable {c : Circuit} {rows : Rows}
    (hr : ¬ ∀ x ∈ c.expr.vars, x.Readable rows) :
    c.expr.evalLifted rows ∅ = .error .outOfRange := by
  rw [Expr.evalLifted, c.unfolds_expr.eval_of_not_readable hr]
  rfl

/-! ## Shared nodes -/

/-- The nodes in scope are bound to the values of their trees. -/
def BoundValues.Hold (a : Arena) (rows : Rows) (scope : Scope) (bound : BoundValues) : Prop :=
  ∀ i : Nat, scope.contains i = true → ∃ e s, a.Unfolds i e ∧ bound[(i : Int)]? = some s ∧
    e.eval rows ∅ = .ok s

section

variable {a : Arena} {rows : Rows} {scope : Scope} {bound : BoundValues} {i : Nat}
  {n : Node} {e f : Expr}

/-- With the nodes in scope bound to their values, the expression of a node has the value of its
tree. -/
theorem eval_expr? (hb : bound.Hold a rows scope) (he : a.Unfolds i e) (hn : a.node? i = some n)
    (hf : a.expr? (fun id => scope.contains id) n = some f) :
    f.eval rows bound = e.eval rows ∅ := by
  refine Arena.fold_induction (P := fun i f => ∀ e, a.Unfolds i e →
    f.eval rows bound = e.eval rows ∅) ?_ ?_ ?_ hn hf e he
  · intro i n f hn hs e he
    simp only [Expr.visitor, Arena.id_of_node? hn] at hs
    split at hs
    · cases hs
      obtain ⟨e', s, he', hbound, hval⟩ := hb i ‹_›
      rw [he'.unique he] at hval
      rw [hval, Expr.eval, hbound]
      rfl
    · cases hs
  · intro i n x _ _ hl e he
    rw [he.unique (.leaf hl)]
    rfl
  · intro i n op l r f g _ _ hl ihf ihg e he
    obtain ⟨x, y, rfl, hx, hy⟩ := he.exists_operands hl
    show (do return op.apply (← f.eval rows bound) (← g.eval rows bound) :
      Except EvalError Scalar) = _
    rw [ihf x hx, ihg y hy]
    rfl

end

/-! ## Buckets -/

/-- All variables of the constraints can be read. -/
def Readable (rows : Rows) (cs : List Circuit) : Prop :=
  ∀ c ∈ cs, ∀ x ∈ c.expr.vars, x.Readable rows

/-- That is, each of them has a value by itself. -/
theorem readable_iff {rows : Rows} {cs : List Circuit} :
    Readable rows cs ↔ ∀ c ∈ cs, ∃ s, c.expr.eval rows ∅ = .ok s := by
  constructor
  · intro h c hc
    obtain ⟨s, hs, -⟩ := c.unfolds_expr.eval_of_readable (h c hc)
    exact ⟨s, hs⟩
  · intro h c hc
    by_contra hx
    obtain ⟨s, hs⟩ := h c hc
    rw [c.unfolds_expr.eval_of_not_readable hx] at hs
    cases hs

theorem Below.not_readable {a : Arena} {rows : Rows} {cs : List Circuit}
    (ha : ∀ c ∈ cs, c.arena = a) {i : Nat} {e : Expr} (h : Below a cs i) (he : a.Unfolds i e)
    (hr : ¬ ∀ x ∈ e.vars, x.Readable rows) : ¬ Readable rows cs := by
  obtain ⟨e', he', c, hc, hs⟩ := h.unfolds ha
  rw [he'.unique he] at hs
  exact fun hall => hr fun x hx => hall c hc x (hs x hx)

namespace BucketEvaluation

variable {a : Arena} {rows : Rows} {cs : List Circuit}

/-- The bindings so far give the nodes in scope their values, unless a variable cannot be read. -/
def Bound.Sound (a : Arena) (rows : Rows) (cs : List Circuit) (b : Bound) : Prop :=
  match Expr.bindAll rows b.bindings.toList ∅ with
  | .ok bound => bound.Hold a rows b.scope
  | .error e => e = .outOfRange ∧ ¬ Readable rows cs

theorem bindAll_append (rows : Rows) (bindings : List Binding) (b : Binding) :
    Expr.bindAll rows (bindings ++ [b]) ∅ = (do
      let bound ← Expr.bindAll rows bindings ∅
      return bound.insert b.node (← b.expr.eval rows bound)) := by
  rw [Expr.bindAll, List.foldlM_append]
  simp only [List.foldlM_cons, List.foldlM_nil, bind_pure]
  rfl

theorem exprIn_eq_ok {scope : Scope} {n : Node} {f : Expr} :
    exprIn a scope n = .ok f ↔ a.expr? (fun id => scope.contains id) n = some f := by
  unfold exprIn
  cases a.expr? (fun id => scope.contains id) n <;> simp

/-- One more binding is sound if the node stands below the constraints. -/
theorem bindNode_sound (ha : ∀ c ∈ cs, c.arena = a) {b b' : Bound} {i : Nat}
    (hb : b.Sound a rows cs) (hi : Below a cs i) (h : bindNode a b i = .ok b') :
    b'.Sound a rows cs := by
  unfold bindNode at h
  split at h
  · cases h
  · rename_i n hn
    obtain ⟨f, hf, h⟩ := exists_of_bind_eq_ok h
    obtain ⟨scope, hscope, h⟩ := exists_of_bind_eq_ok h
    cases h
    obtain ⟨e, he⟩ := Arena.exists_unfolds (hi.lt ha)
    unfold Bound.Sound at hb ⊢
    rw [Array.toList_push, bindAll_append]
    cases hall : Expr.bindAll rows b.bindings.toList ∅ with
    | error err => rw [hall] at hb; exact hb
    | ok bound =>
      rw [hall] at hb
      have heval := eval_expr? hb he hn (exprIn_eq_ok.1 hf)
      by_cases hr : ∀ x ∈ e.vars, x.Readable rows
      · obtain ⟨s, hs, -⟩ := he.eval_of_readable hr
        rw [hs] at heval
        simp only [heval, bind, Except.bind, pure, Except.pure]
        intro j hj
        by_cases hji : j = i
        · subst hji
          exact ⟨e, s, he, by simp, hs⟩
        · have hne : (j : Int) ≠ i := by exact_mod_cast hji
          obtain ⟨e', s', he', hs', hv'⟩ :=
            hb j (((Scope.declare_eq_ok hscope j).1 hj).resolve_right hne)
          refine ⟨e', s', he', ?_, hv'⟩
          rw [Std.TreeMap.getElem?_insert,
            if_neg (by rw [Std.LawfulEqOrd.compare_eq_iff_eq]; exact hne.symm), hs']
      · rw [he.eval_of_not_readable hr] at heval
        simp only [heval, bind, Except.bind, true_and]
        exact hi.not_readable ha he hr

theorem bindAll_sound (ha : ∀ c ∈ cs, c.arena = a) {plan : Plan}
    (hplan : Plan.ofCircuits cs = .ok plan) {b : Bound}
    (h : plan.order.foldlM (bindNode a) ⟨.empty, #[]⟩ = .ok b) : b.Sound a rows cs := by
  refine foldlM_induction (P := Bound.Sound a rows cs) (fun b i b' hi hb h => ?_) ?_ h
  · exact bindNode_sound ha hb (Plan.below_of_mem_order ha hplan hi) h
  · intro i hi
    rw [Scope.contains_empty] at hi
    cases hi

end BucketEvaluation

/-- The constraints of a bucket in the order of its outputs: those over the base field first. -/
def outputOrder (cs : List Circuit) : List Circuit :=
  (cs.filter fun c => c.isBase) ++ cs.filter fun c => !c.isBase

theorem mem_outputOrder {cs : List Circuit} {c : Circuit} : c ∈ outputOrder cs ↔ c ∈ cs := by
  rw [outputOrder, List.mem_append, List.mem_filter, List.mem_filter]
  cases c.isBase <;> simp

namespace BucketEvaluation

variable {a : Arena} {cs : List Circuit}

/-- The code of a bucket binds the nodes of the plan, then evaluates the expression of every
constraint in the order of the outputs. All are looked up in the arena of the first constraint. -/
theorem exists_of_ofCircuits_cons {first : Circuit} {rest : List Circuit} {role : Role}
    {b : BucketEvaluation} (h : ofCircuits role (first :: rest) = .ok b) :
    ∃ (plan : Plan) (bound : Bound) (f : Circuit → Expr),
      Plan.ofCircuits (first :: rest) = .ok plan ∧
      plan.order.foldlM (bindNode first.arena) ⟨.empty, #[]⟩ = .ok bound ∧
      b.bindings = bound.bindings.toList ∧
      b.outputs = (outputOrder (first :: rest)).map (fun c => ⟨f c, c.degree⟩) ∧
      ∀ c ∈ first :: rest,
        first.arena.expr? (fun id => bound.scope.contains id) c.node = some (f c) := by
  obtain ⟨plan, hplan, h⟩ := exists_of_bind_eq_ok h
  obtain ⟨bound, hbound, h⟩ := exists_of_bind_eq_ok h
  obtain ⟨outputs, houtputs, h⟩ := exists_of_bind_eq_ok h
  cases h
  let f : Circuit → Expr :=
    fun c => (first.arena.expr? (fun id => bound.scope.contains id) c.node).getD (.shared 0)
  have hf : ∀ c ∈ first :: rest, first.arena.expr? (fun id => bound.scope.contains id) c.node =
      some (f c) := by
    intro c hc
    obtain ⟨o, ho⟩ := exists_of_mapM_eq_ok houtputs hc
    obtain ⟨g, hg, -⟩ := exists_of_bind_eq_ok ho
    simp [f, exprIn_eq_ok.1 hg]
  refine ⟨plan, bound, f, hplan, hbound, rfl, ?_, hf⟩
  rw [mapM_eq_map (g := fun c : Circuit => (c.isBase, (⟨f c, c.degree⟩ : Output))) fun c hc => by
    rw [output, exprIn_eq_ok.2 (hf c hc)]; rfl] at houtputs
  cases houtputs
  simp only [BucketEvaluation.outputs, outputOrder, List.filter_map, List.map_append,
    List.map_map, Function.comp_def]

theorem exists_of_ofCircuits (ha : ∀ c ∈ cs, c.arena = a) {role : Role} {b : BucketEvaluation}
    (h : ofCircuits role cs = .ok b) :
    ∃ (plan : Plan) (bound : Bound) (f : Circuit → Expr), Plan.ofCircuits cs = .ok plan ∧
      plan.order.foldlM (bindNode a) ⟨.empty, #[]⟩ = .ok bound ∧
      b.bindings = bound.bindings.toList ∧
      b.outputs = (outputOrder cs).map (fun c => ⟨f c, c.degree⟩) ∧
      ∀ c ∈ cs, a.expr? (fun id => bound.scope.contains id) c.node = some (f c) := by
  cases cs with
  | nil =>
    cases h
    exact ⟨⟨∅, []⟩, ⟨.empty, #[]⟩, fun _ => .shared 0, rfl, rfl, rfl, rfl, by simp⟩
  | cons first rest =>
    rw [← ha first List.mem_cons_self]
    exact exists_of_ofCircuits_cons h

/-- Outputs are evaluated like the trees of the constraints, unless a binding fails because a
variable cannot be read. -/
theorem eval_cases (ha : ∀ c ∈ cs, c.arena = a) {role : Role} {b : BucketEvaluation}
    (h : ofCircuits role cs = .ok b) (rows : Rows) :
    (∃ value : Circuit → Except EvalError Ext, b.eval rows = (outputOrder cs).mapM value ∧
      ∀ c ∈ cs, value c = c.expr.evalLifted rows ∅) ∨ b.eval rows = .error .outOfRange ∧
      ¬ Readable rows cs := by
  obtain ⟨plan, bound, f, hplan, hbound, hbindings, houtputs, hf⟩ := exists_of_ofCircuits ha h
  have hs : bound.Sound a rows cs := bindAll_sound ha hplan hbound
  unfold Bound.Sound at hs
  rw [eval, Expr.evalAll, hbindings, houtputs, List.map_map]
  cases hall : Expr.bindAll rows bound.bindings.toList ∅ with
  | error e =>
    rw [hall] at hs
    exact .inr ⟨congrArg Except.error hs.1, hs.2⟩
  | ok values =>
    rw [hall] at hs
    refine .inl ⟨fun c => (f c).evalLifted rows values, List.mapM_map, fun c hc => ?_⟩
    simp only [Expr.evalLifted,
      eval_expr? hs (ha c hc ▸ c.unfolds_expr) (ha c hc ▸ c.node?_id) (hf c hc)]

/-- A bucket whose variables can all be read evaluates to the values of its constraints, those over
the base field first. -/
theorem eval_of_readable (ha : ∀ c ∈ cs, c.arena = a) {role : Role} {b : BucketEvaluation}
    (h : ofCircuits role cs = .ok b) {rows : Rows} (hr : Readable rows cs) :
    b.eval rows = .ok ((outputOrder cs).map fun c => c.expr.value rows.assignment) := by
  rcases eval_cases ha h rows with ⟨value, heval, hvalue⟩ | ⟨-, hnot⟩
  · rw [heval]
    refine mapM_eq_map fun c hc => ?_
    rw [mem_outputOrder] at hc
    rw [hvalue c hc, Circuit.evalLifted_of_readable (hr c hc)]
  · exact absurd hr hnot

/-- A bucket with a variable that cannot be read has no values. -/
theorem eval_of_not_readable (ha : ∀ c ∈ cs, c.arena = a) {role : Role} {b : BucketEvaluation}
    (h : ofCircuits role cs = .ok b) {rows : Rows} (hr : ¬ Readable rows cs) :
    b.eval rows = .error .outOfRange := by
  rcases eval_cases ha h rows with ⟨value, heval, hvalue⟩ | ⟨herror, -⟩
  · rw [heval]
    refine mapM_eq_error (fun c hc => ?_) ?_
    · rw [mem_outputOrder] at hc
      rw [hvalue c hc]
      by_cases hx : ∀ x ∈ c.expr.vars, x.Readable rows
      · exact .inl ⟨_, Circuit.evalLifted_of_readable hx⟩
      · exact .inr (Circuit.evalLifted_of_not_readable hx)
    · obtain ⟨c, hc, hx⟩ : ∃ c ∈ cs, ¬ ∀ x ∈ c.expr.vars, x.Readable rows := by
        simpa [Readable] using hr
      exact ⟨c, mem_outputOrder.2 hc, by rw [hvalue c hc, Circuit.evalLifted_of_not_readable hx]⟩
  · exact herror

/-- Nodes of the arena that are bound nowhere yet can be bound, each once. -/
theorem exists_bindNodes {order : List Nat} (hnodup : order.Nodup) (hlt : ∀ i ∈ order, i < a.size)
    {b : Bound} (hnew : ∀ i ∈ order, ¬ b.scope.contains i = true) :
    ∃ b', order.foldlM (bindNode a) b = .ok b' := by
  induction order generalizing b with
  | nil => exact ⟨b, rfl⟩
  | cons i order ih =>
    rw [List.nodup_cons] at hnodup
    obtain ⟨n, hn⟩ := Arena.exists_node? (hlt i List.mem_cons_self)
    obtain ⟨f, hf⟩ := Arena.exists_unfolds (hlt i List.mem_cons_self)
    obtain ⟨g, hg⟩ := Arena.exists_fold (Expr.visitor fun id => b.scope.contains id) hf hn
    obtain ⟨scope, hscope⟩ := Scope.exists_declare (hnew i List.mem_cons_self)
    obtain ⟨b', hb'⟩ := ih hnodup.2 (fun j hj => hlt j (List.mem_cons_of_mem i hj))
      (b := ⟨scope, b.bindings.push ⟨i, g, n.isBase⟩⟩)
      (Scope.new_of_declare hscope hnodup.1 fun j hj => hnew j (List.mem_cons_of_mem i hj))
    refine ⟨b', ?_⟩
    rw [List.foldlM_cons, bindNode, hn]
    simp only [exprIn_eq_ok.2 hg, hscope]
    exact hb'

/-- The constraints of one arena have evaluation code. -/
theorem exists_ofCircuits (ha : ∀ c ∈ cs, c.arena = a) (role : Role) :
    ∃ b, ofCircuits role cs = .ok b := by
  cases cs with
  | nil => exact ⟨_, rfl⟩
  | cons first rest =>
    obtain ⟨plan, hplan, -, hordered, hmem⟩ := Plan.exists_ofCircuits ha
    obtain ⟨bound, hbound⟩ :=
      exists_bindNodes hordered.nodup (fun i hi => ((hmem i).1 hi).1.lt ha) (b := ⟨.empty, #[]⟩)
        (by simp [Scope.contains_empty])
    rw [← ha first List.mem_cons_self] at hbound
    have houtput : ∀ c ∈ first :: rest, ∃ o, output first.arena bound.scope c = .ok o := by
      intro c hc
      have harena : c.arena = first.arena := (ha c hc).trans (ha first List.mem_cons_self).symm
      obtain ⟨g, hg⟩ :=
        Arena.exists_fold (Expr.visitor fun id => bound.scope.contains id) (harena ▸ c.unfolds_expr)
          (harena ▸ c.node?_id)
      exact ⟨(c.isBase, ⟨g, c.degree⟩), by rw [output, exprIn_eq_ok.2 hg]; rfl⟩
    obtain ⟨outputs, houtputs⟩ := exists_mapM houtput
    exact ⟨_, by simp only [ofCircuits, hplan, bind, Except.bind, hbound, houtputs]; rfl⟩

theorem degrees_eq (ha : ∀ c ∈ cs, c.arena = a) {role : Role} {b : BucketEvaluation}
    (h : ofCircuits role cs = .ok b) : b.degrees = (outputOrder cs).map Circuit.degree := by
  obtain ⟨-, -, f, -, -, -, houtputs, -⟩ := exists_of_ofCircuits ha h
  rw [degrees, houtputs, List.map_map]
  rfl

/-- A list of constraints has evaluation code, whatever nodes they share. On rows of any length it
has values if and only if every constraint has one by itself, and then it has these, those over the
base field first; the degrees are in the same order. It never fails but for an index beyond the
rows. -/
theorem eval_faithful (role : Role) (ha : ∀ c ∈ cs, c.arena = a) :
    ∃ b, ofCircuits role cs = .ok b ∧ b.degrees = (outputOrder cs).map Circuit.degree ∧ ∀ rows,
      ((∃ values, b.eval rows = .ok values) ↔ ∀ c ∈ cs, ∃ s, c.expr.eval rows ∅ = .ok s) ∧
      (∀ values, b.eval rows = .ok values →
        List.Forall₂ (fun c x => ∃ s, c.expr.eval rows ∅ = .ok s ∧ x = s.lift)
          (outputOrder cs) values) ∧
      ∀ e, b.eval rows = .error e → e = .outOfRange := by
  obtain ⟨b, hb⟩ := exists_ofCircuits ha role
  refine ⟨b, hb, degrees_eq ha hb, fun rows => ?_⟩
  rw [← readable_iff]
  by_cases hr : Readable rows cs
  · have heval := eval_of_readable ha hb hr
    refine ⟨by simp [heval, hr], fun values hv => ?_, by simp [heval]⟩
    rw [heval, Except.ok.injEq] at hv
    rw [← hv, List.forall₂_map_right_iff, List.forall₂_same]
    intro c hc
    obtain ⟨s, hs, hvalue⟩ := c.unfolds_expr.eval_of_readable (hr c (mem_outputOrder.1 hc))
    exact ⟨s, hs, hvalue.symm⟩
  · have heval := eval_of_not_readable ha hb hr
    refine ⟨by simp [heval, hr], by simp [heval], fun e he => ?_⟩
    rw [heval, Except.error.injEq] at he
    exact he.symm

/-- The consistency constraints of `synthetic` share nodes, within and between them. -/
theorem eval_faithful_synthetic :
    let cs := ConstraintSystem.synthetic.circuits .consistency
    (∀ c ∈ cs, c.arena = ConstraintSystem.synthetic.arena) ∧
      ∃ b, ofCircuits .consistency cs = .ok b ∧
        b.degrees = (outputOrder cs).map Circuit.degree ∧ ∀ rows,
        ((∃ values, b.eval rows = .ok values) ↔ ∀ c ∈ cs, ∃ s, c.expr.eval rows ∅ = .ok s) ∧
        (∀ values, b.eval rows = .ok values →
          List.Forall₂ (fun c x => ∃ s, c.expr.eval rows ∅ = .ok s ∧ x = s.lift)
            (outputOrder cs) values) ∧
        ∀ e, b.eval rows = .error e → e = .outOfRange := by
  have ha : ∀ c ∈ ConstraintSystem.synthetic.circuits .consistency,
      c.arena = ConstraintSystem.synthetic.arena := by
    intro c hc
    obtain ⟨h, -, hh⟩ := List.mem_filterMap.1 hc
    exact (Arena.circuit?_eq_some.1 hh).1
  exact ⟨ha, eval_faithful .consistency ha⟩

end BucketEvaluation

end AirCompiler
