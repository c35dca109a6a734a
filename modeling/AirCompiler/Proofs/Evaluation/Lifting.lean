import AirCompiler.Proofs.Evaluation.Bucket

/-!
# Main rows over the base field and over the extension

Evaluation code may be given main rows of base elements or of their lifts. Where an operation meets
both kinds of elements it lifts on the way, so values differ in where they were lifted and in
nothing else:

* `SameLifted`: two evaluations fail alike, or have values that are equal once both are lifted. The
  operations keep it (`SameLifted.apply`), so it holds of expressions if it holds of leaves and of
  shared values (`Expr.sameLifted_eval`).
* `Expr.evalAll_liftMain`: bindings followed by outputs do not tell the two kinds of rows apart.
* `Arena.Unfolds.isBase_eval`: on rows of the declared kinds (`Rows.Typed`) the base flag of a tree
  is the kind of its value.
-/

namespace AirCompiler

/-! ## Outcomes up to lifting -/

/-- Two evaluations fail alike, or have values that are equal once both are lifted. -/
inductive SameLifted : Except EvalError Scalar → Except EvalError Scalar → Prop
  | error (e : EvalError) : SameLifted (.error e) (.error e)
  | ok {x y : Scalar} : x.lift = y.lift → SameLifted (.ok x) (.ok y)

namespace SameLifted

variable {x x' y y' : Except EvalError Scalar}

theorem refl (x : Except EvalError Scalar) : SameLifted x x := by
  cases x with
  | error e => exact .error e
  | ok s => exact .ok rfl

/-- Operands that agree up to lifting have results that do. -/
theorem apply (op : Op) (hx : SameLifted x x') (hy : SameLifted y y') :
    SameLifted (do return op.apply (← x) (← y)) (do return op.apply (← x') (← y')) := by
  cases hx with
  | error e => exact .error e
  | ok hs =>
    cases hy with
    | error e => exact .error e
    | ok ht => exact .ok (by rw [op.lift_apply, op.lift_apply, hs, ht])

theorem map_lift_eq (h : SameLifted x y) : Scalar.lift <$> x = Scalar.lift <$> y := by
  cases h with
  | error e => rfl
  | ok hs => exact congrArg Except.ok hs

end SameLifted

/-- Shared nodes have values that agree up to lifting. -/
def BoundValues.SameLifted (bound bound' : BoundValues) : Prop :=
  ∀ id : Int, bound[id]?.map Scalar.lift = bound'[id]?.map Scalar.lift

theorem BoundValues.SameLifted.insert {bound bound' : BoundValues} (h : bound.SameLifted bound')
    {s t : Scalar} (hst : s.lift = t.lift) (id : Int) :
    BoundValues.SameLifted (bound.insert id s) (bound'.insert id t) := by
  intro j
  rw [Std.TreeMap.getElem?_insert, Std.TreeMap.getElem?_insert]
  split
  · exact congrArg some hst
  · exact h j

/-! ## Expressions -/

namespace Expr

variable {rows rows' : Rows} {bound bound' : BoundValues}

/-- Expressions do not tell leaves and shared values apart that agree up to lifting. -/
theorem sameLifted_eval (hleaf : ∀ x : Leaf, SameLifted (x.eval rows) (x.eval rows'))
    (hbound : bound.SameLifted bound') (e : Expr) :
    SameLifted (e.eval rows bound) (e.eval rows' bound') := by
  induction e with
  | leaf x => exact hleaf x
  | shared id =>
    have hid := hbound id
    simp only [eval]
    cases hs : bound[id]? with
    | none =>
      rw [hs, Option.map_none, eq_comm, Option.map_eq_none_iff] at hid
      rw [hid]
      exact .error _
    | some s =>
      rw [hs, Option.map_some, eq_comm, Option.map_eq_some_iff] at hid
      obtain ⟨t, ht, hlift⟩ := hid
      rw [ht]
      exact .ok hlift.symm
  | operation op l r ihl ihr => exact .apply op ihl ihr

/-- Bindings fail alike, or bind all nodes to values that agree up to lifting. -/
theorem sameLifted_bindAll (hleaf : ∀ x : Leaf, SameLifted (x.eval rows) (x.eval rows'))
    (bindings : List Binding) (hbound : bound.SameLifted bound') :
    (∃ e, bindAll rows bindings bound = .error e ∧ bindAll rows' bindings bound' = .error e) ∨
      ∃ values values', bindAll rows bindings bound = .ok values ∧
        bindAll rows' bindings bound' = .ok values' ∧
        values.SameLifted values' := by
  unfold bindAll
  induction bindings generalizing bound bound' with
  | nil => exact .inr ⟨bound, bound', rfl, rfl, hbound⟩
  | cons b bindings ih =>
    have hb := sameLifted_eval hleaf hbound b.expr
    rw [List.foldlM_cons, List.foldlM_cons]
    generalize b.expr.eval rows bound = x, b.expr.eval rows' bound' = y at hb ⊢
    cases hb with
    | error e => exact .inl ⟨e, rfl, rfl⟩
    | ok hst => exact ih (hbound.insert hst b.node)

end Expr

/-! ## Lifted rows -/

/-- The rows with every cell of a main row lifted. -/
def Rows.liftMain (rows : Rows) : Rows :=
  { rows with
    currentMain := rows.currentMain.map fun s => .ext s.lift
    nextMain := rows.nextMain.map fun s => .ext s.lift }

theorem itemAt?_map {α β : Type} (f : α → β) (xs : Array α) (i : Int) :
    itemAt? (xs.map f) i = (itemAt? xs i).map f := by
  rw [itemAt?, itemAt?, Array.size_map]
  cases position? xs.size i with
  | none => rfl
  | some p => simp

theorem Leaf.sameLifted_liftMain (rows : Rows) (x : Leaf) :
    SameLifted (x.eval rows) (x.eval rows.liftMain) := by
  have hmain : ∀ (xs : Array Scalar) (i : Int),
      SameLifted ((itemAt? xs i).elim (.error .outOfRange) .ok)
        ((itemAt? (xs.map fun s => .ext s.lift) i).elim (.error .outOfRange) .ok) := by
    intro xs i
    rw [itemAt?_map]
    cases itemAt? xs i with
    | none => exact .error _
    | some s => exact .ok rfl
  rcases x with s | ⟨row, table, column⟩ | i
  · exact .refl _
  · cases row <;> cases table
    · exact hmain rows.currentMain column
    · exact .refl _
    · exact hmain rows.nextMain column
    · exact .refl _
  · exact .refl _

theorem Expr.evalAll_liftMain (rows : Rows) (bindings : List Binding) (outputs : List Expr) :
    evalAll rows.liftMain bindings outputs = evalAll rows bindings outputs := by
  have hleaf := Leaf.sameLifted_liftMain rows
  have hempty : BoundValues.SameLifted ∅ ∅ := fun _ => rfl
  unfold evalAll
  rcases sameLifted_bindAll hleaf bindings hempty with
    ⟨e, he, he'⟩ | ⟨values, values', hv, hv', hsame⟩
  · rw [he, he']
    rfl
  · rw [hv, hv']
    have heval : (fun e : Expr => e.evalLifted rows.liftMain values') =
        fun e => e.evalLifted rows values :=
      funext fun e => ((sameLifted_eval hleaf hsame e).map_lift_eq).symm
    show outputs.mapM _ = outputs.mapM _
    rw [heval]

theorem Evaluation.evalAll_liftMain (ev : Evaluation) (rows : Rows) :
    ev.evalAll rows.liftMain = ev.evalAll rows := by
  have hbucket : ev.evalBucket rows.liftMain = ev.evalBucket rows := by
    funext role
    unfold evalBucket
    cases role.isDualRow with
    | true => exact Expr.evalAll_liftMain rows _ _
    | false =>
      have hrows : rows.liftMain.withoutNext = rows.withoutNext.liftMain := by
        simp [Rows.liftMain, Rows.withoutNext]
      rw [if_neg (by simp), if_neg (by simp), hrows]
      exact Expr.evalAll_liftMain rows.withoutNext _ _
  rw [evalAll, hbucket]
  rfl

/-! ## The base flag -/

/-- Main rows hold base elements, auxiliary rows and challenges extension elements. -/
structure Rows.Typed (rows : Rows) : Prop where
  main : ∀ row, ∀ s ∈ rows.row row .main, s.isBase = true
  aux : ∀ row, ∀ s ∈ rows.row row .aux, s.isBase = false
  challenges : ∀ s ∈ rows.challenges, s.isBase = false

theorem mem_of_elim_itemAt? {α : Type} {xs : Array α} {i : Int} {s : α}
    (h : (itemAt? xs i).elim (.error .outOfRange) .ok = (.ok s : Except EvalError α)) : s ∈ xs := by
  cases hi : itemAt? xs i with
  | none => rw [hi] at h; cases h
  | some t =>
    rw [hi] at h
    cases h
    obtain ⟨p, -, hp⟩ := Option.bind_eq_some_iff.1 hi
    exact Array.mem_of_getElem? hp

theorem Leaf.isBase_eval {rows : Rows} (hrows : rows.Typed) {x : Leaf} {s : Scalar}
    (h : x.eval rows = .ok s) : s.isBase = x.isBase := by
  rcases x with t | ⟨row, table, column⟩ | i
  · cases h
    rfl
  · have hmem := mem_of_elim_itemAt? h
    cases table with
    | main => exact hrows.main row s hmem
    | aux => exact hrows.aux row s hmem
  · exact hrows.challenges s (mem_of_elim_itemAt? h)

/-- On rows of the declared kinds the base flag of a tree is the kind of its value. -/
theorem Arena.Unfolds.isBase_eval {a : Arena} {i : Nat} {e : Expr} (h : a.Unfolds i e) {rows : Rows}
    (hrows : rows.Typed) {s : Scalar} (hs : e.eval rows ∅ = .ok s) : s.isBase = e.isBase := by
  induction h generalizing s with
  | leaf _ => exact Leaf.isBase_eval hrows hs
  | @operation _ _ _ op x y _ _ _ ihx ihy =>
    obtain ⟨u, hu, hs⟩ := exists_of_bind_eq_ok hs
    obtain ⟨v, hv, hs⟩ := exists_of_bind_eq_ok hs
    cases hs
    rw [op.isBase_apply, ihx hu, ihy hv]
    rfl

/-! ## Both kinds of rows -/

/-- Lifting the main rows changes neither a failure nor, once lifted, a value: of an expression with
any values of shared nodes, and so of a bucket and of all buckets. On rows of the declared kinds a
circuit evaluates to a base element if and only if its base flag is set. -/
theorem Evaluation.lifting_typed :
    (∀ (e : Expr) (rows : Rows) (bound : BoundValues),
      SameLifted (e.eval rows bound) (e.eval rows.liftMain bound)) ∧
    (∀ (b : BucketEvaluation) (rows : Rows), b.eval rows.liftMain = b.eval rows) ∧
    (∀ (ev : Evaluation) (rows : Rows), ev.evalAll rows.liftMain = ev.evalAll rows) ∧
    ∀ (c : Circuit) (rows : Rows), rows.Typed → ∀ s, c.expr.eval rows ∅ = .ok s →
      (s.isBase = true ↔ c.isBase = true) := by
  refine ⟨fun e rows bound => ?_, fun b rows => Expr.evalAll_liftMain rows _ _, evalAll_liftMain,
    fun c rows hrows s hs => ?_⟩
  · exact Expr.sameLifted_eval (Leaf.sameLifted_liftMain rows) (fun _ => rfl) e
  · rw [c.isBase_eq, c.unfolds_expr.isBase_eval hrows hs]

/-- Rows for `synthetic`. -/
def Rows.synthetic : Rows where
  currentMain := #[.base (.ofNat 3), .base 1, .base (.ofNat 4), .base 1]
  currentAux := #[.ext ⟨1, .ofNat 2, .ofNat 3⟩, .ext ⟨.ofNat 4, .ofNat 5, .ofNat 6⟩]
  nextMain := #[.base (.ofNat 5), .base (.ofNat 9), .base (.ofNat 2), .base (.ofNat 6)]
  nextAux := #[.ext ⟨.ofNat 7, .ofNat 8, .ofNat 9⟩, .ext ⟨1, 0, 1⟩]
  challenges := #[.ext ⟨.ofNat 2, 0, 1⟩, .ext ⟨0, .ofNat 3, 0⟩, .ext ⟨.ofNat 5, .ofNat 5, .ofNat 5⟩]

/-- The transition constraints of `synthetic` are of both kinds. -/
theorem Evaluation.lifting_typed_synthetic :
    let cs := ConstraintSystem.synthetic.circuits .transition
    Rows.synthetic.Typed ∧ (∃ c ∈ cs, c.isBase = true) ∧ (∃ c ∈ cs, c.isBase = false) ∧
      ∀ c ∈ cs, ∃ s, c.expr.eval .synthetic ∅ = .ok s ∧ (s.isBase = true ↔ c.isBase = true) := by
  intro cs
  have htyped : Rows.synthetic.Typed :=
    ⟨fun row => by cases row <;> decide, fun row => by cases row <;> decide, by decide⟩
  have hkinds : (∃ c ∈ cs, c.isBase = true) ∧ ∃ c ∈ cs, c.isBase = false := by decide +kernel
  have heval : ∀ c ∈ cs, (c.expr.eval .synthetic ∅).toOption.isSome = true := by decide +kernel
  refine ⟨htyped, hkinds.1, hkinds.2, fun c hc => ?_⟩
  cases hs : c.expr.eval .synthetic ∅ with
  | error e =>
    have := heval c hc
    rw [hs] at this
    cases this
  | ok s => exact ⟨s, rfl, lifting_typed.2.2.2 c .synthetic htyped s hs⟩

end AirCompiler
