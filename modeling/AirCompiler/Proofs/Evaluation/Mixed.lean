import AirCompiler.Proofs.Evaluation.Bucket
import AirCompiler.Proofs.Sharing.Mixed

/-!
# Evaluation code for circuits of several arenas

A bucket of circuits that do not collide and that the arena of the first one hosts has evaluation
code. That code reads ids of all circuits in this arena. Circuits of the arena keep their values; a
circuit of another one keeps at most the operation at its root.

* `Circuit.ReadAs a b c f`: to code `b`, whose ids are those of arena `a`, circuit `c` is expression
  `f`.
* `BucketEvaluation.eval_mixed_cases`: outputs are evaluated like what their circuits are read as.
* `BucketEvaluation.ofCircuits_mixed`: which circuits are refused, and what becomes of the others.
* `BucketEvaluation.ofCircuits_misreads_square`: two circuits whose code has another value than one
  of them.
-/

namespace AirCompiler

/-- The code binds a node of this id. -/
def BucketEvaluation.Binds (b : BucketEvaluation) (i : Nat) : Prop :=
  ∃ binding ∈ b.bindings, binding.node = i

/-- What a circuit is to code whose ids are those of arena `a`. If its id is bound, it is the node
of this id. Otherwise its root is its own, and the operands are the nodes of their ids. -/
inductive Circuit.ReadAs (a : Arena) (b : BucketEvaluation) (c : Circuit) : Expr → Prop
  | bound {f : Expr} (hb : b.Binds c.id) (hf : a.Unfolds c.id f) : ReadAs a b c f
  | leaf {x : Leaf} (hb : ¬ b.Binds c.id) (hl : c.node.label = .leaf x) : ReadAs a b c (.leaf x)
  | operation {op : Op} {l r : Nat} {f g : Expr} (hb : ¬ b.Binds c.id)
      (hl : c.node.label = .binary op l r)
      (hf : a.Unfolds l f) (hg : a.Unfolds r g) : ReadAs a b c (.operation op f g)

/-- A circuit of the arena is read as itself. -/
theorem Circuit.ReadAs.eq_expr {a : Arena} {b : BucketEvaluation} {c : Circuit} {f : Expr}
    (h : c.ReadAs a b f) (hc : c.arena = a) : f = c.expr := by
  have hlabel : a.label? c.id = some c.node.label := Arena.label?_of_node? (hc ▸ c.node?_id)
  have hf : a.Unfolds c.id f := by
    cases h with
    | bound _ hf => exact hf
    | leaf _ hl => exact .leaf (hl ▸ hlabel)
    | operation _ hl hf hg => exact .operation (hl ▸ hlabel) hf hg
  rw [← hc] at hf
  exact (Circuit.expr_of_unfolds hf).symm

namespace BucketEvaluation

variable {a : Arena} {rows : Rows} {cs : List Circuit}

/-- The nodes in scope are those that are bound. -/
theorem contains_iff_of_bindNodes {order : List Nat} {b : Bound}
    (h : order.foldlM (bindNode a) ⟨.empty, #[]⟩ = .ok b) (i : Nat) :
    b.scope.contains i = true ↔ ∃ binding ∈ b.bindings.toList, binding.node = i := by
  have hstep : ∀ (b : Bound) (j : Nat) (b' : Bound), j ∈ order →
      (b.scope.contains i = true ↔ ∃ binding ∈ b.bindings.toList, binding.node = i) →
      bindNode a b j = .ok b' →
      (b'.scope.contains i = true ↔ ∃ binding ∈ b'.bindings.toList, binding.node = i) := by
    intro b j b' _ hb h
    unfold bindNode at h
    split at h
    · cases h
    · obtain ⟨f, -, h⟩ := exists_of_bind_eq_ok h
      obtain ⟨scope, hscope, h⟩ := exists_of_bind_eq_ok h
      cases h
      rw [Scope.declare_eq_ok hscope, hb, Array.toList_push]
      simp [or_and_right, exists_or, eq_comm]
  exact foldlM_induction hstep (by simp [Scope.contains_empty]) h

/-- Nodes of an arena are bound to their values, unless one of its circuits has none. -/
theorem hold_of_bindNodes {order : List Nat} (horder : ∀ i ∈ order, i < a.size) {b : Bound}
    (h : order.foldlM (bindNode a) ⟨.empty, #[]⟩ = .ok b) (rows : Rows) :
    (∃ bound, Expr.bindAll rows b.bindings.toList ∅ = .ok bound ∧ bound.Hold a rows b.scope) ∨
      Expr.bindAll rows b.bindings.toList ∅ = .error .outOfRange ∧
        ¬ ∀ c : Circuit, c.arena = a → ∃ s, c.expr.eval rows ∅ = .ok s := by
  -- the circuits of the arena, all of them, stand above every node
  let all : List Circuit := List.ofFn fun i : Fin a.size => ⟨a, i.val, i.isLt⟩
  have hall : ∀ c ∈ all, c.arena = a := by
    intro c hc
    obtain ⟨i, rfl⟩ := List.mem_ofFn.1 hc
    rfl
  have hbelow : ∀ i ∈ order, Below a all i := fun i hi =>
    ⟨⟨a, i, horder i hi⟩, List.mem_ofFn.2 ⟨⟨i, horder i hi⟩, rfl⟩, .refl⟩
  have hsound : b.Sound a rows all := by
    refine foldlM_induction (P := Bound.Sound a rows all)
      (fun b i b' hi hb h => bindNode_sound hall hb (hbelow i hi) h) ?_ h
    intro i hi
    rw [Scope.contains_empty] at hi
    cases hi
  unfold Bound.Sound at hsound
  cases hbind : Expr.bindAll rows b.bindings.toList ∅ with
  | ok bound =>
    rw [hbind] at hsound
    exact .inl ⟨bound, rfl, hsound⟩
  | error err =>
    rw [hbind, readable_iff] at hsound
    obtain ⟨rfl, hno⟩ := hsound
    exact .inr ⟨rfl, fun h => hno fun c hc => h c (hall c hc)⟩

/-- The operands of a circuit have namesakes in an arena that hosts it. -/
theorem exists_operand (hhosts : a.Hosts cs) {c : Circuit} (hc : c ∈ cs) {op : Op} {l r : Nat}
    (hl : c.node.label = .binary op l r) {j : Nat} (hj : j = l ∨ j = r) :
    ∃ n f, a.node? j = some n ∧ a.Unfolds j f := by
  have hreached : Reached cs j :=
    ⟨c, hc, .single ((Arena.hasOperand_iff c.node?_id).2 (by simpa [hl, Label.children] using hj))⟩
  obtain ⟨hsize, -⟩ := hhosts j hreached
  obtain ⟨n, hn⟩ := Arena.exists_node? hsize
  obtain ⟨f, hf⟩ := Arena.exists_unfolds hsize
  exact ⟨n, f, hn, hf⟩

/-- A circuit has an expression in an arena that hosts it. -/
theorem exists_output (hhosts : a.Hosts cs) {c : Circuit} (hc : c ∈ cs) (scope : Scope) :
    ∃ o, output a scope c = .ok o := by
  have hexpr : ∃ g, a.expr? (fun id => scope.contains id) c.node = some g := by
    cases hbound : (Expr.visitor fun id => scope.contains id).bound c.node with
    | some g => exact ⟨g, Arena.fold_bound hbound⟩
    | none =>
      cases hl : c.node.label with
      | leaf x => exact ⟨_, Arena.fold_leaf hbound hl⟩
      | binary op l r =>
        obtain ⟨nl, x, hnl, hx⟩ := exists_operand hhosts hc hl (.inl rfl)
        obtain ⟨nr, y, hnr, hy⟩ := exists_operand hhosts hc hl (.inr rfl)
        obtain ⟨gl, hgl⟩ := Arena.exists_fold (Expr.visitor fun id => scope.contains id) hx hnl
        obtain ⟨gr, hgr⟩ := Arena.exists_fold (Expr.visitor fun id => scope.contains id) hy hnr
        exact ⟨_, by rw [Arena.expr?, Arena.fold_binary hbound hl hnl hnr, hgl, hgr]; rfl⟩
  obtain ⟨g, hg⟩ := hexpr
  exact ⟨(c.isBase, ⟨g, c.degree⟩), by rw [output, exprIn_eq_ok.2 hg]; rfl⟩

/-- The expression of a circuit has the value of what the circuit is read as. -/
theorem exists_readAs (hhosts : a.Hosts cs) {c : Circuit} (hc : c ∈ cs) {scope : Scope}
    {b : BucketEvaluation} (hbinds : ∀ i : Nat, scope.contains i = true ↔ b.Binds i)
    {bound : BoundValues} (hhold : bound.Hold a rows scope) {g : Expr}
    (hg : a.expr? (fun id => scope.contains id) c.node = some g) :
    ∃ f, c.ReadAs a b f ∧ g.eval rows bound = f.eval rows ∅ := by
  have hid := Arena.id_of_node? c.node?_id
  by_cases hin : scope.contains c.id = true
  · obtain ⟨f, s, hf, hs, hvalue⟩ := hhold c.id hin
    have hbound : (Expr.visitor fun id => scope.contains id).bound c.node =
        some (.shared c.id) := by
      simp only [Expr.visitor, hid, if_pos hin]
    rw [Arena.expr?, Arena.fold_bound hbound, Option.some.injEq] at hg
    refine ⟨f, .bound ((hbinds c.id).1 hin) hf, ?_⟩
    rw [← hg, Expr.eval, hs, hvalue]
    rfl
  · have hb : ¬ b.Binds c.id := by rwa [← hbinds]
    have hbound : (Expr.visitor fun id => scope.contains id).bound c.node = none := by
      simp only [Expr.visitor, hid, if_neg hin]
    cases hl : c.node.label with
    | leaf x =>
      rw [Arena.expr?, Arena.fold_leaf hbound hl, Option.some.injEq] at hg
      exact ⟨.leaf x, .leaf hb hl, by rw [← hg]; rfl⟩
    | binary op l r =>
      obtain ⟨nl, x, hnl, hx⟩ := exists_operand hhosts hc hl (.inl rfl)
      obtain ⟨nr, y, hnr, hy⟩ := exists_operand hhosts hc hl (.inr rfl)
      rw [Arena.expr?, Arena.fold_binary hbound hl hnl hnr, Option.bind_eq_some_iff] at hg
      obtain ⟨gl, hgl, hg⟩ := hg
      obtain ⟨gr, hgr, rfl⟩ := Option.map_eq_some_iff.1 hg
      refine ⟨.operation op x y, .operation hb hl hx hy, ?_⟩
      show (do return op.apply (← gl.eval rows bound) (← gr.eval rows bound) :
        Except EvalError Scalar) = _
      rw [eval_expr? hhold hx hnl hgl, eval_expr? hhold hy hnr hgr]
      rfl

/-- Outputs are evaluated like what their circuits are read as, unless a circuit of the first arena
has no value. -/
theorem eval_mixed_cases {first : Circuit} {rest : List Circuit}
    (hnames : NamesApart (first :: rest)) {role : Role}
    {b : BucketEvaluation} (h : ofCircuits role (first :: rest) = .ok b) (rows : Rows) :
    (∃ value : Circuit → Except EvalError Scalar,
      b.eval rows = (outputOrder (first :: rest)).mapM (fun c => Scalar.lift <$> value c) ∧
      ∀ c ∈ first :: rest, ∃ f, c.ReadAs first.arena b f ∧ value c = f.eval rows ∅) ∨
    b.eval rows = .error .outOfRange ∧ ¬ ∀ c : Circuit, c.arena = first.arena →
      ∃ s, c.expr.eval rows ∅ = .ok s := by
  obtain ⟨plan, bound, g, hplan, hbound, hbindings, houtputs, hg⟩ := exists_of_ofCircuits_cons h
  obtain ⟨hhosts, horder⟩ : first.arena.Hosts (first :: rest) ∧
      ∀ i ∈ plan.order, i < first.arena.size := by
    rcases Plan.ofCircuits_cases hnames with ⟨plan', hplan', -, hhosts, -, horder⟩ | ⟨⟨i, herror⟩,
      -⟩ | ⟨herror | herror, -⟩
    · obtain rfl := Except.ok.inj (hplan.symm.trans hplan')
      exact ⟨hhosts, horder⟩
    all_goals cases hplan.symm.trans herror
  have hbinds : ∀ i : Nat, bound.scope.contains i = true ↔ b.Binds i := by
    intro i
    rw [contains_iff_of_bindNodes hbound, Binds, hbindings]
  rw [eval, Expr.evalAll, hbindings, houtputs, List.map_map]
  rcases hold_of_bindNodes horder hbound rows with ⟨values, hvalues, hhold⟩ | ⟨herror, hno⟩
  · rw [hvalues]
    exact .inl ⟨fun c => (g c).eval rows values, List.mapM_map,
      fun c hc => exists_readAs hhosts hc hbinds hhold (hg c hc)⟩
  · rw [herror]
    exact .inr ⟨rfl, hno⟩

/-- Outputs have the values of what their circuits are read as. -/
theorem forall₂_of_eval_mixed {first : Circuit} {rest : List Circuit}
    (hnames : NamesApart (first :: rest)) {role : Role}
    {b : BucketEvaluation} (h : ofCircuits role (first :: rest) = .ok b) {values : List Ext}
    (hvalues : b.eval rows = .ok values) :
    List.Forall₂ (fun c x => ∃ f s, c.ReadAs first.arena b f ∧ f.eval rows ∅ = .ok s ∧ x = s.lift ∧
      (c.arena = first.arena → f = c.expr)) (outputOrder (first :: rest)) values := by
  rcases eval_mixed_cases hnames h rows with ⟨value, heval, hread⟩ | ⟨herror, -⟩
  · have hall := forall₂_of_mapM_eq_ok (heval.symm.trans hvalues)
    refine ((List.forall₂_and_left _ _).2 ⟨fun c hc => hread c (mem_outputOrder.1 hc), hall⟩).imp ?_
    rintro c x ⟨⟨f, hf, hvalue⟩, hx⟩
    rw [hvalue] at hx
    cases hs : f.eval rows ∅ with
    | error err =>
      rw [hs] at hx
      cases hx
    | ok s =>
      rw [hs] at hx
      cases hx
      exact ⟨f, s, hf, hs, rfl, hf.eq_expr⟩
  · cases hvalues.symm.trans herror

/-- Code has values if all circuits of the first arena and of the bucket have. -/
theorem exists_eval_mixed {first : Circuit} {rest : List Circuit}
    (hnames : NamesApart (first :: rest)) {role : Role}
    {b : BucketEvaluation} (h : ofCircuits role (first :: rest) = .ok b)
    (hrows : ∀ c : Circuit, c.arena = first.arena ∨ c ∈ first :: rest →
      ∃ s, c.expr.eval rows ∅ = .ok s) :
    ∃ values, b.eval rows = .ok values := by
  rcases eval_mixed_cases hnames h rows with ⟨value, heval, hread⟩ | ⟨-, hno⟩
  · have hnode : ∀ {i f}, first.arena.Unfolds i f → ∃ s, f.eval rows ∅ = .ok s := by
      intro i f hf
      obtain ⟨c, hc, rfl⟩ := hf.exists_circuit
      exact hrows c (.inl (Arena.circuit?_eq_some.1 hc).1)
    rw [heval]
    refine exists_mapM fun c hc => ?_
    have hc := mem_outputOrder.1 hc
    obtain ⟨f, hf, hvalue⟩ := hread c hc
    obtain ⟨s, hs⟩ : ∃ s, f.eval rows ∅ = .ok s := by
      cases hf with
      | bound _ hf => exact hnode hf
      | leaf _ hl =>
        rw [← c.expr_of_unfolds (.leaf (hl ▸ Arena.label?_of_node? c.node?_id))]
        exact hrows c (.inr hc)
      | operation _ _ hf hg =>
        obtain ⟨s, hs⟩ := hnode hf
        obtain ⟨t, ht⟩ := hnode hg
        exact ⟨_, by rw [Expr.eval, hs, ht]; rfl⟩
    exact ⟨s.lift, by rw [hvalue, hs]; rfl⟩
  · exact absurd (fun c hc => hrows c (.inl hc)) hno

/-- Circuits of any arenas have code, or have no plan. -/
theorem ofCircuits_mixed_cases {first : Circuit} {rest : List Circuit}
    (hnames : NamesApart (first :: rest)) (role : Role) :
    (∃ b, ofCircuits role (first :: rest) = .ok b) ∧ ¬ Collide (first :: rest) ∧
      first.arena.Hosts (first :: rest) ∨
    (∃ i, ofCircuits role (first :: rest) = .error (.repeatedId i)) ∧ Collide (first :: rest) ∨
    (ofCircuits role (first :: rest) = .error .unknownNode ∨
      ofCircuits role (first :: rest) = .error .uncountedNode) ∧
      ¬ Collide (first :: rest) ∧ ¬ first.arena.Hosts (first :: rest) := by
  rcases Plan.ofCircuits_cases hnames with ⟨plan, hplan, hcollide, hhosts, hnodup,
    horder⟩ | ⟨⟨i, hplan⟩, hcollide⟩ | ⟨hplan, hcollide, hhosts⟩
  · obtain ⟨bound, hbound⟩ :=
      exists_bindNodes hnodup horder (b := ⟨.empty, #[]⟩) (by simp [Scope.contains_empty])
    obtain ⟨outputs, houtputs⟩ := exists_mapM fun c hc => exists_output hhosts hc bound.scope
    exact .inl ⟨⟨_, by simp only [ofCircuits, hplan, bind, Except.bind, hbound, houtputs]; rfl⟩,
      hcollide, hhosts⟩
  · exact .inr (.inl ⟨⟨i, by rw [ofCircuits, hplan]; rfl⟩, hcollide⟩)
  · refine .inr (.inr ⟨hplan.imp (fun h => ?_) fun h => ?_, hcollide, hhosts⟩)
    · rw [ofCircuits, h]
      rfl
    · rw [ofCircuits, h]
      rfl

end BucketEvaluation

/-! ## Samples -/

/-- The arena that a construction leaves. -/
def Build.arena (name : Nat) (build : Build Nat) : Arena :=
  match build (.empty name) with
  | .ok _ a => a
  | .error _ a => a

/-- Three cells of the current main row. -/
def Arena.cells : Arena := Build.arena 0 do
  let _ ← Build.currentMain 0
  let _ ← Build.currentMain 1
  Build.currentMain 2

/-- The square of the first cell, which has the id that the second cell has in `cells`. -/
def Arena.square : Arena := Build.arena 1 do
  let _ ← Build.currentMain 2
  let cell ← Build.currentMain 0
  Build.times cell cell

/-- The first cell of one arena and the square of another. -/
def Circuit.cellAndSquare : List Circuit :=
  [⟨.cells, 0, by decide +kernel⟩, ⟨.square, 2, by decide +kernel⟩]

/-- A row in which only the first cell is one. -/
def Rows.firstCell : Rows := { Rows.empty with currentMain := #[.base 1, .base 0, .base 0] }

theorem Circuit.names_cellAndSquare : NamesApart cellAndSquare := by
  have hname : Arena.cells.name ≠ Arena.square.name := by decide +kernel
  simp [NamesApart, cellAndSquare, hname, hname.symm]

namespace BucketEvaluation

variable {cs : List Circuit}

/-- Circuits of any arenas are refused as a broken invariant if and only if two of them, of
different arenas, reach one id. Those that the first arena does not host are refused too, by a
failed lookup. All others have code, and circuits of one arena always have. The code reads all ids
in the first arena: there circuits keep their values, and elsewhere they have the values of what
they are read as. -/
theorem ofCircuits_mixed (role : Role) (hnames : NamesApart cs) :
    ((∃ err, ofCircuits role cs = .error err ∧ err.isInvariant = true) ↔ Collide cs) ∧
    ((∃ b, ofCircuits role cs = .ok b) ↔ ¬ Collide cs ∧ ∀ first ∈ cs.head?, first.arena.Hosts cs) ∧
    (∀ err, ofCircuits role cs = .error err → err.isInvariant = true ∨ err = .unknownNode ∨
      err = .uncountedNode) ∧
    ((∀ c ∈ cs, ∀ d ∈ cs, c.arena = d.arena) → ∃ b, ofCircuits role cs = .ok b) ∧
    ∀ b, ofCircuits role cs = .ok b → ∀ first ∈ cs.head?, ∀ rows,
      (∀ values, b.eval rows = .ok values → List.Forall₂
        (fun c x => ∃ f s, c.ReadAs first.arena b f ∧ f.eval rows ∅ = .ok s ∧ x = s.lift ∧
          (c.arena = first.arena → f = c.expr))
        (outputOrder cs) values) ∧
      ((∀ c : Circuit, c.arena = first.arena ∨ c ∈ cs → ∃ s, c.expr.eval rows ∅ = .ok s) →
        ∃ values, b.eval rows = .ok values) := by
  cases cs with
  | nil => simp [ofCircuits, Collide]
  | cons first rest =>
    have hcases := ofCircuits_mixed_cases hnames role
    simp only [List.head?_cons, Option.mem_def, Option.some.injEq, forall_eq']
    refine ⟨?_, ?_, ?_, fun hone => ?_,
      fun b hb rows => ⟨fun values => forall₂_of_eval_mixed hnames hb, exists_eval_mixed hnames hb⟩⟩
    · rcases hcases with ⟨⟨b, hb⟩, hcollide, -⟩ | ⟨⟨i, herror⟩, hcollide⟩ | ⟨herror | herror,
        hcollide, -⟩
      · simp [hb, hcollide]
      · simp [herror, hcollide, CompileError.isInvariant]
      · simp [herror, hcollide, CompileError.isInvariant]
      · simp [herror, hcollide, CompileError.isInvariant]
    · rcases hcases with ⟨⟨b, hb⟩, hcollide, hhosts⟩ | ⟨⟨i, herror⟩, hcollide⟩ | ⟨herror | herror,
        hcollide, hhosts⟩
      · simp [hb, hcollide, hhosts]
      · simp [herror, hcollide]
      · simp [herror, hhosts]
      · simp [herror, hhosts]
    · intro err herr
      rcases hcases with ⟨⟨b, hb⟩, -⟩ | ⟨⟨i, herror⟩, -⟩ | ⟨herror | herror, -⟩
      · cases herr.symm.trans hb
      · cases herr.symm.trans herror
        exact .inl rfl
      · cases herr.symm.trans herror
        exact .inr (.inl rfl)
      · cases herr.symm.trans herror
        exact .inr (.inr rfl)
    · exact exists_ofCircuits (fun c hc => hone c hc first List.mem_cons_self) role

/-- The cell and the square reach different ids, so they have code. To it the square is that of the
second cell. -/
theorem ofCircuits_misreads_square :
    ∃ b, ofCircuits .consistency Circuit.cellAndSquare = .ok b ∧ b.eval .firstCell = .ok [1, 0] ∧
      (outputOrder Circuit.cellAndSquare).map
      (fun c => c.expr.eval .firstCell ∅) = [.ok (.base 1), .ok (.base 1)] := by
  obtain ⟨b, hb, heval⟩ : ∃ b, ofCircuits .consistency Circuit.cellAndSquare = .ok b ∧
      b.eval .firstCell = .ok [1, 0] :=
    exists_eq_ok (by decide +kernel)
  exact ⟨b, hb, heval, by decide +kernel⟩

/-- The same two circuits, which do not collide and which `cells` hosts. -/
theorem ofCircuits_mixed_square :
    let cs := Circuit.cellAndSquare
    NamesApart cs ∧
    ((∃ err, ofCircuits .consistency cs = .error err ∧ err.isInvariant = true) ↔ Collide cs) ∧
    ((∃ b, ofCircuits .consistency cs = .ok b) ↔ ¬ Collide cs ∧
      ∀ first ∈ cs.head?, first.arena.Hosts cs) ∧
    (∀ err, ofCircuits .consistency cs = .error err →
      err.isInvariant = true ∨ err = .unknownNode ∨ err = .uncountedNode) ∧
    ((∀ c ∈ cs, ∀ d ∈ cs, c.arena = d.arena) → ∃ b, ofCircuits .consistency cs = .ok b) ∧
    ∀ b, ofCircuits .consistency cs = .ok b → ∀ first ∈ cs.head?, ∀ rows,
      (∀ values, b.eval rows = .ok values →
        List.Forall₂
          (fun c x => ∃ f s, c.ReadAs first.arena b f ∧ f.eval rows ∅ = .ok s ∧ x = s.lift ∧
          (c.arena = first.arena → f = c.expr)) (outputOrder cs) values) ∧
      ((∀ c : Circuit, c.arena = first.arena ∨ c ∈ cs → ∃ s, c.expr.eval rows ∅ = .ok s) →
        ∃ values, b.eval rows = .ok values) :=
  ⟨Circuit.names_cellAndSquare, ofCircuits_mixed .consistency Circuit.names_cellAndSquare⟩

end BucketEvaluation

end AirCompiler
