import AirCompiler.Expr.Basic
import AirCompiler.Proofs.Field.Ring

/-!
# Trees of circuits

`Arena.Unfolds a i e`: node `i` of the arena unfolds into the expression `e`. Every node unfolds
into exactly one expression (`exists_unfolds`, `Unfolds.unique`), and what is known of a node can be
read off its tree:

* `Unfolds.degree_eq`, `Unfolds.isBase_eq`: the degree and the base flag kept at a node are those of
  the tree.
* `foldM_leaf`, `foldM_binary`: the equations of a fold with visits in a monad, and `fold_bound`,
  `fold_leaf`, `fold_binary`: those of a fold without effects. They are all that proofs use of the
  list of open tasks that a fold runs on.
* `fold_induction`: what holds of every value that a fold finds.
* `Circuit.unfolds_expr`: `Circuit.expr` is the tree of the circuit.

`Expr.value` is the value of a tree in the extension field, for an assignment of values to all cells
and challenges.
-/

namespace AirCompiler

/-! ## Expressions -/

/-- A value for every cell and every challenge. -/
@[ext] structure Assignment where
  cell : Cell → Ext
  challenge : Int → Ext

/-- The value of a leaf. -/
def Leaf.value (ρ : Assignment) : Leaf → Ext
  | .constant s => s.lift
  | .input c => ρ.cell c
  | .challenge i => ρ.challenge i

namespace Expr

/-- The value of an expression without references. -/
def value (ρ : Assignment) : Expr → Ext
  | .leaf x => x.value ρ
  | .shared _ => 0
  | .operation op l r => op.onExt (l.value ρ) (r.value ρ)

/-- The variables of an expression: the cells and challenges that occur in it, from left to
right. -/
def vars : Expr → List Leaf
  | .leaf (.constant _) => []
  | .leaf x => [x]
  | .shared _ => []
  | .operation _ l r => l.vars ++ r.vars

/-- The degree as a polynomial in the variables. -/
def degree : Expr → Nat
  | .leaf x => x.degree
  | .shared _ => 0
  | .operation op l r => op.degree l.degree r.degree

/-- Whether all leaves take their values in the base field. -/
def isBase : Expr → Bool
  | .leaf x => x.isBase
  | .shared _ => false
  | .operation _ l r => l.isBase && r.isBase

theorem mem_vars_leaf {x y : Leaf} (h : y ∈ (Expr.leaf x).vars) : y = x := by
  cases x with
  | constant s => cases h
  | input c => simpa [vars] using h
  | challenge i => simpa [vars] using h

/-- An expression has the same value under assignments that agree on its variables. -/
theorem value_congr {ρ σ : Assignment} {e : Expr} (h : ∀ x ∈ e.vars, x.value ρ = x.value σ) :
    e.value ρ = e.value σ := by
  induction e with
  | leaf x =>
    cases x with
    | constant s => rfl
    | input c => exact h (.input c) (by simp [vars])
    | challenge i => exact h (.challenge i) (by simp [vars])
  | shared id => rfl
  | operation op l r ihl ihr =>
    simp only [value]
    rw [ihl fun x hx => h x (List.mem_append_left _ hx),
      ihr fun x hx => h x (List.mem_append_right _ hx)]

/-- A base expression has values in the base field if its cells have. -/
theorem value_isBase {ρ : Assignment} {e : Expr} (hb : e.isBase)
    (h : ∀ c : Cell, c.table = .main → Leaf.input c ∈ e.vars → (ρ.cell c).IsBase) :
    (e.value ρ).IsBase := by
  induction e with
  | leaf x =>
    cases x with
    | constant s => exact Scalar.lift_isBase hb
    | input c => exact h c (by simpa [isBase, Leaf.isBase] using hb) (by simp [vars])
    | challenge i => cases hb
  | shared id => cases hb
  | operation op l r ihl ihr =>
    simp only [isBase, Bool.and_eq_true] at hb
    exact .onExt op (ihl hb.1 fun c hc hm => h c hc (List.mem_append_left _ hm))
      (ihr hb.2 fun c hc hm => h c hc (List.mem_append_right _ hm))

/-- The variables of a base expression are cells of the main table. -/
theorem exists_main_of_isBase {e : Expr} (hb : e.isBase) {x : Leaf} (hx : x ∈ e.vars) :
    ∃ c : Cell, c.table = .main ∧ x = .input c := by
  induction e with
  | leaf y =>
    obtain rfl := mem_vars_leaf hx
    cases x with
    | constant s => cases hx
    | input c => exact ⟨c, by simpa [isBase, Leaf.isBase] using hb, rfl⟩
    | challenge i => cases hb
  | shared id => cases hb
  | operation op l r ihl ihr =>
    simp only [isBase, Bool.and_eq_true] at hb
    rcases List.mem_append.1 hx with h | h
    · exact ihl hb.1 h
    · exact ihr hb.2 h

/-- An expression that is no constant has a variable. -/
theorem vars_ne_nil {e : Expr} (h : 0 < e.degree) : ∃ x, x ∈ e.vars := by
  induction e with
  | leaf x =>
    cases x with
    | constant s => cases h
    | input c => exact ⟨.input c, by simp [vars]⟩
    | challenge i => exact ⟨.challenge i, by simp [vars]⟩
  | shared id => cases h
  | operation op l r ihl ihr =>
    have h : 0 < l.degree ∨ 0 < r.degree := by
      cases op with
      | add => simp only [degree, Op.degree] at h; omega
      | mul => simp only [degree, Op.degree] at h; omega
    rcases h with h | h
    · obtain ⟨x, hx⟩ := ihl h
      exact ⟨x, List.mem_append_left _ hx⟩
    · obtain ⟨x, hx⟩ := ihr h
      exact ⟨x, List.mem_append_right _ hx⟩

end Expr

namespace Arena

/-! ## Nodes -/

/-- The label at an id. -/
def label? (a : Arena) (i : Nat) : Option Label := (a.node? i).map Node.label

theorem label?_of_node? {a : Arena} {i : Nat} {n : Node} (h : a.node? i = some n) :
    a.label? i = some n.label := by
  simp [label?, h]

theorem exists_node? {a : Arena} {i : Nat} (h : i < a.size) : ∃ n, a.node? i = some n :=
  ⟨a.nodes[i], Array.getElem?_eq_getElem h⟩

theorem lt_of_node? {a : Arena} {i : Nat} {n : Node} (h : a.node? i = some n) : i < a.size :=
  (Array.getElem?_eq_some_iff.1 h).1

theorem lt_of_label? {a : Arena} {i : Nat} {l : Label} (h : a.label? i = some l) : i < a.size := by
  obtain ⟨n, hn, -⟩ := Option.map_eq_some_iff.1 h
  exact lt_of_node? hn

theorem fits_of_node? {a : Arena} {i : Nat} {n : Node} (h : a.node? i = some n) :
    n.Fits a.nodes i := by
  obtain ⟨hi, rfl⟩ := Array.getElem?_eq_some_iff.1 h
  exact a.fitted i hi

theorem id_of_node? {a : Arena} {i : Nat} {n : Node} (h : a.node? i = some n) : n.id = i :=
  (fits_of_node? h).id_eq

/-- The operands of a node are nodes of smaller ids. -/
theorem operands_lt {a : Arena} {i : Nat} {op : Op} {l r : Nat}
    (h : a.label? i = some (.binary op l r)) : l < i ∧ r < i := by
  obtain ⟨n, hn, hl⟩ := Option.map_eq_some_iff.1 h
  have := rank_le_of_node? hn
  rw [hl, Label.rank] at this
  omega

/-! ## Unfolding -/

/-- Node `i` unfolds into the expression. -/
inductive Unfolds (a : Arena) : Nat → Expr → Prop
  | leaf {i : Nat} {x : Leaf} : a.label? i = some (.leaf x) → Unfolds a i (.leaf x)
  | operation {i l r : Nat} {op : Op} {x y : Expr} : a.label? i = some (.binary op l r) →
      Unfolds a l x → Unfolds a r y → Unfolds a i (.operation op x y)

theorem exists_unfolds {a : Arena} {i : Nat} (h : i < a.size) : ∃ e, a.Unfolds i e := by
  induction i using Nat.strongRecOn with
  | ind i ih =>
    obtain ⟨n, hn⟩ := exists_node? h
    have hl := label?_of_node? hn
    cases hlab : n.label with
    | leaf x => exact ⟨_, .leaf (hlab ▸ hl)⟩
    | binary op l r =>
      rw [hlab] at hl
      obtain ⟨h₁, h₂⟩ := operands_lt hl
      obtain ⟨x, hx⟩ := ih l h₁ (by omega)
      obtain ⟨y, hy⟩ := ih r h₂ (by omega)
      exact ⟨_, .operation hl hx hy⟩

namespace Unfolds

variable {a : Arena} {i : Nat} {e : Expr}

theorem lt (h : a.Unfolds i e) : i < a.size := by
  cases h with
  | leaf hl => exact lt_of_label? hl
  | operation hl _ _ => exact lt_of_label? hl

theorem exists_operands (h : a.Unfolds i e) {op : Op} {l r : Nat}
    (hl : a.label? i = some (.binary op l r)) :
    ∃ x y, e = .operation op x y ∧ a.Unfolds l x ∧ a.Unfolds r y := by
  cases h with
  | leaf hl' => rw [hl] at hl'; cases hl'
  | operation hl' hx hy =>
    rw [hl] at hl'
    cases hl'
    exact ⟨_, _, rfl, hx, hy⟩

theorem unique {e' : Expr} (h : a.Unfolds i e) (h' : a.Unfolds i e') : e = e' := by
  induction h generalizing e' with
  | leaf hl =>
    cases h' with
    | leaf hl' => rw [hl] at hl'; cases hl'; rfl
    | operation hl' _ _ => rw [hl] at hl'; cases hl'
  | operation hl _ _ ihx ihy =>
    obtain ⟨x, y, rfl, hx, hy⟩ := h'.exists_operands hl
    rw [ihx hx, ihy hy]

/-- The degree and the base flag at a node are those of its tree. -/
theorem attributes (h : a.Unfolds i e) {n : Node} (hn : a.node? i = some n) :
    n.degree = e.degree ∧ n.isBase = e.isBase := by
  induction h generalizing n with
  | leaf hl =>
    have hf := fits_of_node? hn
    rw [label?_of_node? hn, Option.some.injEq] at hl
    rw [hf.degree_eq, hf.isBase_eq, hl]
    exact ⟨rfl, rfl⟩
  | @operation i l r op x y hl hx hy ihx ihy =>
    have hf := fits_of_node? hn
    rw [label?_of_node? hn, Option.some.injEq] at hl
    obtain ⟨nl, hnl⟩ := exists_node? hx.lt
    obtain ⟨nr, hnr⟩ := exists_node? hy.lt
    obtain ⟨dl, bl⟩ := ihx hnl
    obtain ⟨dr, br⟩ := ihy hnr
    rw [node?] at hnl hnr
    rw [hf.degree_eq, hf.isBase_eq, hl]
    simp [Label.degreeIn, Label.isBaseIn, Expr.degree, Expr.isBase, hnl, hnr, dl, dr, bl, br]

theorem degree_eq (h : a.Unfolds i e) {n : Node} (hn : a.node? i = some n) : n.degree = e.degree :=
  (h.attributes hn).1

theorem isBase_eq (h : a.Unfolds i e) {n : Node} (hn : a.node? i = some n) : n.isBase = e.isBase :=
  (h.attributes hn).2

end Unfolds

/-! ## Folds -/

section

variable {m : Type → Type} [Monad m] [LawfulMonad m] {α : Type} {a : Arena}
  {v : VisitorM m α} {n : Node}

/-- A visit puts the value of its node on top of the values found so far. -/
theorem foldTasksM_visit (tasks : List FoldTask) (values : List α) :
    a.foldTasksM v (.visit n :: tasks) values = a.foldM v n >>= fun x => a.foldTasksM v tasks
      (x :: values) := by
  -- the rank of the node is the induction; the tasks and values are arbitrary, as the operands are
  -- visited among others
  induction hk : n.label.rank using Nat.strongRecOn generalizing n tasks values with
  | ind k ih =>
    unfold foldM
    rw [foldTasksM, foldTasksM, bind_assoc]
    congr 1
    funext b
    cases b with
    | some x => simp [foldTasksM]
    | none =>
      cases hn : n.label with
      | leaf x => simp [foldTasksM]
      | binary op l r =>
        simp only
        split
        · rename_i nl nr hl hr
          have hl := rank_le_of_node? hl
          have hr := rank_le_of_node? hr
          rw [hn, Label.rank] at hk
          simp only [ih _ (show nl.label.rank < k by omega) _ _ rfl,
            ih _ (show nr.label.rank < k by omega) _ _ rfl, bind_assoc]
          congr 1
          funext x
          congr 1
          funext y
          simp [foldTasksM]
        · apply OptionT.ext
          simp

theorem foldM_leaf {x : Leaf} (hn : n.label = .leaf x) :
    a.foldM v n =
      OptionT.lift (v.bound n) >>= fun b => b.elim (OptionT.lift (v.leaf n x)) pure := by
  unfold foldM
  rw [foldTasksM]
  congr 1
  funext b
  cases b with
  | some y => simp [foldTasksM]
  | none =>
    simp only [Option.elim]
    split
    · rename_i hy
      cases hn.symm.trans hy
      simp [foldTasksM]
    · rename_i hy
      cases hn.symm.trans hy

theorem foldM_binary {op : Op} {l r : Nat} {nl nr : Node} (hn : n.label = .binary op l r)
    (hl : a.node? l = some nl) (hr : a.node? r = some nr) :
    a.foldM v n = OptionT.lift (v.bound n) >>= fun b =>
      b.elim (a.foldM v nl >>= fun x => a.foldM v nr >>= fun y =>
          OptionT.lift (v.operation n op x y)) pure := by
  conv => lhs; unfold foldM
  rw [foldTasksM]
  congr 1
  funext b
  cases b with
  | some y => simp [foldTasksM]
  | none =>
    simp only [Option.elim]
    split
    · rename_i hy
      cases hn.symm.trans hy
    · rename_i hy
      cases hn.symm.trans hy
      split
      · rename_i hl' hr'
        cases hl.symm.trans hl'
        cases hr.symm.trans hr'
        simp only [foldTasksM_visit]
        simp [foldTasksM]
      · rename_i h
        exact absurd hr (h nl nr hl)

end

variable {α : Type} {a : Arena} {v : Visitor α} {n : Node}

theorem fold_bound {x : α} (hb : v.bound n = some x) : a.fold v n = some x := by
  have hb : v.effectless.bound n = some x := hb
  unfold fold foldM
  rw [foldTasksM, hb]
  show (a.foldTasksM v.effectless [] [x]).run.run = some x
  rw [foldTasksM]
  rfl

theorem fold_leaf {x : Leaf} (hb : v.bound n = none) (hn : n.label = .leaf x) :
    a.fold v n = some (v.leaf x) := by
  have hb : v.effectless.bound n = none := hb
  rw [fold, foldM_leaf hn, hb]
  rfl

theorem fold_binary {op : Op} {l r : Nat} {nl nr : Node} (hb : v.bound n = none)
    (hn : n.label = .binary op l r) (hl : a.node? l = some nl) (hr : a.node? r = some nr) :
    a.fold v n = (a.fold v nl).bind fun x => (a.fold v nr).map fun y => v.operation op x y := by
  have hb : v.effectless.bound n = none := hb
  rw [fold, foldM_binary hn hl hr, hb, fold, fold]
  cases a.foldM v.effectless nl with
  | none => rfl
  | some x =>
    cases a.foldM v.effectless nr with
    | none => rfl
    | some y => rfl

/-- A fold over a node of the arena has a value. -/
theorem exists_fold (v : Visitor α) {i : Nat} {e : Expr} (h : a.Unfolds i e)
    (hn : a.node? i = some n) : ∃ x, a.fold v n = some x := by
  induction h generalizing n with
  | leaf hl =>
    rw [label?_of_node? hn, Option.some.injEq] at hl
    cases hb : v.bound n with
    | some x => exact ⟨x, fold_bound hb⟩
    | none => exact ⟨_, fold_leaf hb hl⟩
  | operation hl hx hy ihx ihy =>
    rw [label?_of_node? hn, Option.some.injEq] at hl
    cases hb : v.bound n with
    | some x => exact ⟨x, fold_bound hb⟩
    | none =>
      obtain ⟨nl, hnl⟩ := exists_node? hx.lt
      obtain ⟨nr, hnr⟩ := exists_node? hy.lt
      obtain ⟨x, hx⟩ := ihx hnl
      obtain ⟨y, hy⟩ := ihy hnr
      exact ⟨_, by rw [fold_binary hb hl hnl hnr, hx, hy]; rfl⟩

/-- What holds of the values at bound nodes and at leaves, and of an operation if it holds of its
operands, holds of every value of a fold. -/
theorem fold_induction {P : Nat → α → Prop}
    (hbound : ∀ {i n x}, a.node? i = some n → v.bound n = some x → P i x)
    (hleaf : ∀ {i n x}, a.node? i = some n → v.bound n = none → a.label? i = some (.leaf x) →
      P i (v.leaf x))
    (hoperation : ∀ {i n op l r x y}, a.node? i = some n → v.bound n = none →
      a.label? i = some (.binary op l r) → P l x → P r y → P i (v.operation op x y))
    {i : Nat} {x : α} (hn : a.node? i = some n) (h : a.fold v n = some x) : P i x := by
  obtain ⟨e, he⟩ := exists_unfolds (lt_of_node? hn)
  induction he generalizing n x with
  | leaf hl =>
    cases hb : v.bound n with
    | some y =>
      rw [fold_bound hb] at h
      cases h
      exact hbound hn hb
    | none =>
      have hlabel := hl
      rw [label?_of_node? hn, Option.some.injEq] at hlabel
      rw [fold_leaf hb hlabel] at h
      cases h
      exact hleaf hn hb hl
  | operation hl hx hy ihx ihy =>
    cases hb : v.bound n with
    | some y =>
      rw [fold_bound hb] at h
      cases h
      exact hbound hn hb
    | none =>
      have hlabel := hl
      rw [label?_of_node? hn, Option.some.injEq] at hlabel
      obtain ⟨nl, hnl⟩ := exists_node? hx.lt
      obtain ⟨nr, hnr⟩ := exists_node? hy.lt
      rw [fold_binary hb hlabel hnl hnr, Option.bind_eq_some_iff] at h
      obtain ⟨x, hx, h⟩ := h
      obtain ⟨y, hy, rfl⟩ := Option.map_eq_some_iff.1 h
      exact hoperation hn hb hl (ihx hnl hx) (ihy hnr hy)

/-- A fold that stops at no node is a recursion over the tree. -/
theorem fold_unfolds (leafValue : Leaf → α) (operation : Op → α → α → α) (value : Expr → α)
    (hleaf : ∀ x, value (.leaf x) = leafValue x)
    (hop : ∀ op x y, value (.operation op x y) = operation op (value x) (value y))
    {i : Nat} {e : Expr} (h : a.Unfolds i e) (hn : a.node? i = some n) :
    a.fold ⟨fun _ => none, leafValue, operation⟩ n = some (value e) := by
  induction h generalizing n with
  | leaf hl =>
    rw [label?_of_node? hn, Option.some.injEq] at hl
    rw [fold_leaf rfl hl, hleaf]
  | operation hl hx hy ihx ihy =>
    rw [label?_of_node? hn, Option.some.injEq] at hl
    obtain ⟨nl, hnl⟩ := exists_node? hx.lt
    obtain ⟨nr, hnr⟩ := exists_node? hy.lt
    rw [fold_binary rfl hl hnl hnr, ihx hnl, ihy hnr, hop]
    rfl

end Arena

/-! ## Circuits -/

namespace Circuit

theorem node?_id (c : Circuit) : c.arena.node? c.id = some c.node :=
  Array.getElem?_eq_getElem c.isLt

theorem label?_id (c : Circuit) : c.arena.label? c.id = some c.node.label :=
  Arena.label?_of_node? c.node?_id

/-- The expression of a circuit is the tree that it unfolds into. -/
theorem unfolds_expr (c : Circuit) : c.arena.Unfolds c.id c.expr := by
  obtain ⟨e, he⟩ := Arena.exists_unfolds (a := c.arena) c.isLt
  have hf : c.arena.expr? (fun _ => false) c.node = some e := by
    have :=
      Arena.fold_unfolds (Expr.visitor fun _ => false).leaf (Expr.visitor fun _ => false).operation
        (fun e => e)
      (fun _ => rfl) (fun _ _ _ => rfl) he c.node?_id
    simpa [Arena.expr?, Expr.visitor] using this
  rw [expr, hf]
  exact he

theorem expr_of_unfolds {c : Circuit} {e : Expr} (h : c.arena.Unfolds c.id e) : c.expr = e :=
  c.unfolds_expr.unique h

theorem degree_eq (c : Circuit) : c.degree = c.expr.degree := c.unfolds_expr.degree_eq c.node?_id

theorem isBase_eq (c : Circuit) : c.isBase = c.expr.isBase := c.unfolds_expr.isBase_eq c.node?_id

end Circuit

theorem Arena.circuit?_eq_some {a : Arena} {i : Nat} {c : Circuit} :
    a.circuit? i = some c ↔ c.arena = a ∧ c.id = i := by
  unfold Arena.circuit?
  constructor
  · intro h
    split at h
    · cases h; exact ⟨rfl, rfl⟩
    · cases h
  · rintro ⟨rfl, rfl⟩
    rw [dif_pos c.isLt]

theorem Arena.exists_circuit? {a : Arena} {i : Nat} (h : i < a.size) : ∃ c, a.circuit? i = some c :=
  ⟨⟨a, i, h⟩, Arena.circuit?_eq_some.2 ⟨rfl, rfl⟩⟩

theorem Arena.Unfolds.expr_eq {a : Arena} {i : Nat} {e : Expr} (h : a.Unfolds i e) {c : Circuit}
    (hc : a.circuit? i = some c) : c.expr = e := by
  obtain ⟨rfl, rfl⟩ := Arena.circuit?_eq_some.1 hc
  exact Circuit.expr_of_unfolds h

theorem Arena.Unfolds.exists_circuit {a : Arena} {i : Nat} {e : Expr} (h : a.Unfolds i e) :
    ∃ c, a.circuit? i = some c ∧ c.expr = e := by
  obtain ⟨c, hc⟩ := Arena.exists_circuit? h.lt
  exact ⟨c, hc, h.expr_eq hc⟩

end AirCompiler
