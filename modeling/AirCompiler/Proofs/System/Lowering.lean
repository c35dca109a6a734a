import AirCompiler.Proofs.Circuit.Rewriting
import AirCompiler.Proofs.System.Unwinding

/-!
# What lowering does to a bucket

Lowering a bucket takes round after round. The rules so far are *derived* (`Derived`): each takes
the next free column of its table and reads, beside the variables of the constraints it started
from, only columns of the rules before it.

* `Circuit.factor?_spec`: above the target degree there is always a factor to replace.
* `Arena.Subtracts.defines`: the difference of a column and a node defines the column.
* `Lower.round_spec`: a round succeeds, keeps `Lowered.Sound` and takes an operation out of the
  constraints.
* `Lower.bucket_spec`: so the lowering of a whole bucket succeeds and keeps `Lowered.Sound`.
* `Lower.maxDegree_le_of_bucket`: there are no fewer nodes than rounds, so it ends only when the
  target degree is met.
-/

namespace AirCompiler

/-! ## Factors -/

namespace Circuit

variable {c x y : Circuit} {op : Op} {l r : Nat}

theorem expr_leaf {v : Leaf} (h : c.node.label = .leaf v) : c.expr = .leaf v :=
  expr_of_unfolds (.leaf (h ▸ Arena.label?_of_node? c.node?_id))

theorem expr_binary (h : c.node.label = .binary op l r) (hl : c.arena.circuit? l = some x)
    (hr : c.arena.circuit? r = some y) : c.expr = .operation op x.expr y.expr := by
  obtain ⟨hxa, rfl⟩ := Arena.circuit?_eq_some.1 hl
  obtain ⟨hya, rfl⟩ := Arena.circuit?_eq_some.1 hr
  exact expr_of_unfolds
    (.operation (h ▸ Arena.label?_of_node? c.node?_id) (hxa ▸ x.unfolds_expr)
      (hya ▸ y.unfolds_expr))

theorem isModerate_iff {target : Int} :
    c.isModerate target = true ↔ 1 < c.degree ∧ (c.degree : Int) ≤ target := by
  simp [isModerate]

theorem factor?_binary {target : Int} (h : c.node.label = .binary op l r)
    (hl : c.arena.circuit? l = some x) (hr : c.arena.circuit? r = some y) :
    c.factor? target =
      if op = .mul && x.isModerate target then some x
      else if op = .mul && y.isModerate target then some y
      else if target < x.degree then x.factor? target
      else if target < y.degree then y.factor? target
      else none := by
  rw [factor?]
  split
  · rename_i v hv
    rw [h] at hv
    cases hv
  · rename_i op' l' r' h'
    rw [h] at h'
    cases h'
    split
    · rename_i x' y' hx hy
      rw [hl, Option.some.injEq] at hx
      rw [hr, Option.some.injEq] at hy
      rw [hx, hy]
    · rename_i hno
      exact absurd hr (hno x y hl)

theorem isOperation (h : 1 < c.degree) : c.arena.IsOperation c.id := by
  cases hlab : c.node.label with
  | leaf v =>
    rw [degree_eq, expr_leaf hlab] at h
    cases v <;> simp [Expr.degree, Leaf.degree] at h
  | binary op l r => exact ⟨op, l, r, hlab ▸ c.label?_id⟩

/-- A circuit above the target degree has a factor of moderate degree below it. -/
theorem factor?_spec {target : Int} (ht : 2 ≤ target) (c : Circuit) (h : target < c.degree) :
    ∃ d, c.factor? target = some d ∧ d.arena = c.arena ∧ d.isModerate target = true ∧
      c.arena.Reaches c.id d.id := by
  induction hi : c.id using Nat.strongRecOn generalizing c with
  | ind i ih =>
    subst hi
    cases hlab : c.node.label with
    | leaf v =>
      rw [degree_eq, expr_leaf hlab] at h
      cases v <;> simp only [Expr.degree, Leaf.degree] at h <;> omega
    | binary op l r =>
      obtain ⟨hlt₁, hlt₂⟩ := child_lt hlab
      have hc : c.id < c.arena.size := c.isLt
      obtain ⟨x, hx⟩ := Arena.exists_circuit? (a := c.arena) (i := l) (by omega)
      obtain ⟨y, hy⟩ := Arena.exists_circuit? (a := c.arena) (i := r) (by omega)
      obtain ⟨hxa, hxi⟩ := Arena.circuit?_eq_some.1 hx
      obtain ⟨hya, hyi⟩ := Arena.circuit?_eq_some.1 hy
      have hdeg : c.degree = op.degree x.degree y.degree := by
        rw [degree_eq, expr_binary hlab hx hy, Expr.degree, ← degree_eq, ← degree_eq]
      have hxr : c.arena.HasOperand c.id x.id := ⟨op, l, r, hlab ▸ c.label?_id, .inl hxi⟩
      have hyr : c.arena.HasOperand c.id y.id := ⟨op, l, r, hlab ▸ c.label?_id, .inr hyi⟩
      rw [factor?_binary hlab hx hy]
      split_ifs with h₁ h₂ h₃ h₄
      · rw [Bool.and_eq_true] at h₁
        exact ⟨x, rfl, hxa, h₁.2, .single hxr⟩
      · rw [Bool.and_eq_true] at h₂
        exact ⟨y, rfl, hya, h₂.2, .single hyr⟩
      · obtain ⟨d, hd, ha, hm, hr⟩ := ih x.id (by omega) x h₃ rfl
        rw [hxa] at ha hr
        exact ⟨d, hd, ha, hm, .head hxr hr⟩
      · obtain ⟨d, hd, ha, hm, hr⟩ := ih y.id (by omega) y h₄ rfl
        rw [hya] at ha hr
        exact ⟨d, hd, ha, hm, .head hyr hr⟩
      · -- neither operand exceeds the target: so the circuit is a product, of factors of degree
        -- at most one
        exfalso
        cases op with
        | add => simp only [Op.degree] at hdeg; omega
        | mul =>
          simp only [decide_true, Bool.true_and, isModerate_iff] at h₁ h₂
          simp only [Op.degree] at hdeg
          omega

end Circuit

theorem maxDegree_le_iff {target : Int} (ht : 0 ≤ target) (cs : List Circuit) :
    maxDegree cs ≤ target ↔ ∀ c ∈ cs, (c.degree : Int) ≤ target := by
  have hfold : ∀ (cs : List Circuit) (d : Int),
      cs.foldl (fun d c => max d (c.degree : Int)) d ≤ target ↔ d ≤ target ∧
      ∀ c ∈ cs, (c.degree : Int) ≤ target := by
    intro cs
    induction cs with
    | nil => simp
    | cons c cs ih => intro d; simp [ih, and_assoc]
  rw [maxDegree, hfold]
  exact and_iff_right (by omega)

/-- Above the target degree there is a factor to replace. -/
theorem pickFactor_spec {target : Int} (ht : 2 ≤ target) {cs : List Circuit}
    (h : ¬ maxDegree cs ≤ target) :
    ∃ d, ∃ c ∈ cs, pickFactor target cs = .ok d ∧ d.arena = c.arena ∧ d.isModerate target = true ∧
      c.arena.Reaches c.id d.id := by
  unfold pickFactor
  split
  · rename_i hf
    rw [maxDegree_le_iff (by omega)] at h
    refine absurd (fun c hc => ?_) h
    simpa using List.find?_eq_none.1 hf c hc
  · rename_i c hf
    obtain ⟨d, hd, ha, hm, hr⟩ := c.factor?_spec ht (by simpa using List.find?_some hf)
    exact ⟨d, c, List.mem_of_find?_eq_some hf, by rw [hd], ha, hm, hr⟩

/-! ## Rules -/

/-- The rule sets its column to the expression: its constraint is their difference. -/
structure Rule.Defines (a : Arena) (rule : Rule) (e : Expr) : Prop where
  expression : a.Unfolds rule.expression e
  constraint : ∃ z, a.Unfolds rule.constraint z ∧
    (∀ x, x ∈ z.vars ↔ x = .input rule.column ∨ x ∈ e.vars) ∧
    ∀ ρ, z.value ρ = ρ.cell rule.column - e.value ρ

theorem Rule.Defines.mono {a b : Arena} {rule : Rule} {e : Expr} (h : rule.Defines a e)
    (hab : a.Extends b) :
    rule.Defines b e := by
  obtain ⟨z, hz, hvars, hv⟩ := h.constraint
  exact ⟨hab.unfolds h.expression, z, hab.unfolds hz, hvars, hv⟩

/-- The difference of a column and a node defines the column, and has the degree of the node. -/
theorem Arena.Subtracts.defines {c : Circuit} {column : Cell} {i : Nat} {e : Expr}
    (h : c.arena.Subtracts c.id column i) (he : c.arena.Unfolds i e) (hd : 0 < e.degree) :
    Rule.Defines c.arena ⟨column, i, c.id⟩ e ∧ c.degree = e.degree := by
  obtain ⟨y, z, hz, hmul, hadd⟩ := h.unfolds he
  refine ⟨⟨he, z, hz, fun v => ?_, fun ρ => h.value_eq he hz⟩, ?_⟩
  · rw [hadd.mem_vars, hmul.mem_vars]
    simp [Expr.vars]
  · rw [c.degree_eq, Circuit.expr_of_unfolds hz, hadd.degree_eq, hmul.degree_eq]
    simp only [Expr.degree, Op.degree, Leaf.degree]
    omega

/-- The constraint of the rule is zero. -/
def Rule.Holds (a : Arena) (ρ : Assignment) (rule : Rule) : Prop :=
  ∃ c, a.circuit? rule.constraint = some c ∧ c.expr.value ρ = 0

theorem Rule.Defines.holds_iff {a : Arena} {rule : Rule} {e : Expr}
    (h : rule.Defines a e) {ρ : Assignment} : rule.Holds a ρ ↔ ρ.cell rule.column = e.value ρ := by
  obtain ⟨z, hz, -, hv⟩ := h.constraint
  obtain ⟨c, hc, rfl⟩ := hz.exists_circuit
  rw [← sub_eq_zero, ← hv]
  constructor
  · rintro ⟨d, hd, h0⟩
    rw [hc, Option.some.injEq] at hd
    exact hd ▸ h0
  · exact fun h0 => ⟨c, hc, h0⟩

/-! ## Derived rules -/

/-- The number of columns of a table. -/
def Limits.columns (limits : Limits) : Table → Int
  | .main => limits.mainColumns
  | .aux => limits.auxColumns

/-- The table that can hold the values of the expression. -/
def Expr.table (e : Expr) : Table := if e.isBase then .main else .aux

theorem Expr.isBase_of_table {e : Expr} (h : e.table = .main) : e.isBase = true := by
  by_contra hb
  simp [Expr.table, hb] at h

/-- The first free column for an expression, once the rules have taken theirs. -/
def Limits.column (limits : Limits) (rules : List Rule) (e : Expr) : Cell :=
  ⟨.current, e.table, limits.columns e.table + rules.countP fun rule => rule.column.table = e.table⟩

theorem Limits.isBase_column (limits : Limits) (rules : List Rule) (e : Expr) :
    (Expr.leaf (.input (limits.column rules e))).isBase = e.isBase := by
  cases h : e.isBase <;> simp [Expr.isBase, Leaf.isBase, Limits.column, Expr.table, h]

/-- The variables that the next rule may read. -/
def Known (given : Leaf → Prop) (rules : List Rule) (x : Leaf) : Prop :=
  given x ∨ ∃ rule ∈ rules, x = .input rule.column

/-- Every rule takes the first free column, and its expression is a product or sum of given
variables and of columns of the rules before it. -/
inductive Derived (a : Arena) (limits : Limits) (given : Leaf → Prop) : List Rule → Prop
  | nil : Derived a limits given []
  | snoc {rules : List Rule} {rule : Rule} {e : Expr} : Derived a limits given rules →
      rule.Defines a e →
      rule.column = limits.column rules e → 1 < e.degree → (∀ x ∈ e.vars, Known given rules x) →
      Derived a limits given (rules ++ [rule])

theorem Known.append {given : Leaf → Prop} {rules more : List Rule} {x : Leaf}
    (h : Known given rules x) : Known given (rules ++ more) x :=
  h.imp_right fun ⟨rule, hm, hx⟩ => ⟨rule, List.mem_append_left _ hm, hx⟩

theorem Rule.not_isMain : (fun rule : Rule => !rule.isMain) = fun rule =>
    decide (rule.column.table = .aux) := by
  funext rule
  rw [isMain]
  cases rule.column.table <;> rfl

theorem Lower.nextColumn_eq (limits : Limits) (rules : Array Rule) (c : Circuit) :
    nextColumn limits rules c = limits.column rules.toList c.expr := by
  rw [nextColumn, Limits.column, Expr.table, ← c.isBase_eq]
  cases c.isBase with
  | true => simp only [if_true, Limits.columns, Array.countP_toList]; rfl
  | false =>
    simp only [Bool.false_eq_true, if_false, Limits.columns, Array.countP_toList, Rule.not_isMain]

namespace Derived

variable {a b : Arena} {limits : Limits} {given : Leaf → Prop} {rules : List Rule}

theorem mono (h : Derived a limits given rules) (hab : a.Extends b) :
    Derived b limits given rules := by
  induction h with
  | nil => exact .nil
  | snoc _ hd hc hdeg hv ih => exact .snoc ih (hd.mono hab) hc hdeg hv

/-- The columns of the rules are numbered on from the limits. -/
theorem column_bounds (h : Derived a limits given rules) {rule : Rule} (hr : rule ∈ rules) :
    rule.column.row = .current ∧ limits.columns rule.column.table ≤ rule.column.column ∧
      rule.column.column < limits.columns rule.column.table + rules.countP fun r =>
        r.column.table = rule.column.table := by
  induction h with
  | nil => cases hr
  | @snoc rules last e _ _ hc _ _ ih =>
    rw [List.countP_append]
    rcases List.mem_append.1 hr with hr | hr
    · obtain ⟨h₁, h₂, h₃⟩ := ih hr
      exact ⟨h₁, h₂, by omega⟩
    · obtain rfl := List.mem_singleton.1 hr
      have htable : rule.column.table = e.table := by rw [hc]; rfl
      have hcolumn : rule.column.column =
          limits.columns e.table + rules.countP fun r => r.column.table = e.table := by
        rw [hc]; rfl
      have hrow : rule.column.row = .current := by rw [hc]; rfl
      rw [hcolumn, htable]
      exact ⟨hrow, by omega, by simp [htable]⟩

/-- The first free column is not a column of the rules. -/
theorem column_ne (h : Derived a limits given rules) (e : Expr) {rule : Rule} (hr : rule ∈ rules) :
    rule.column ≠ limits.column rules e := by
  intro heq
  have := (h.column_bounds hr).2.2
  rw [heq, Limits.column] at this
  simp at this

theorem nodup (h : Derived a limits given rules) : (rules.map Rule.column).Nodup := by
  induction h with
  | nil => exact List.nodup_nil
  | snoc h _ hc _ _ ih =>
    rw [List.map_append, List.map_singleton, List.nodup_append]
    refine ⟨ih, List.nodup_singleton _, fun c hm d hd => ?_⟩
    obtain ⟨rule, hr, rfl⟩ := List.mem_map.1 hm
    rw [List.mem_singleton.1 hd, hc]
    exact h.column_ne _ hr

theorem exists_defines (h : Derived a limits given rules) {rule : Rule} (hr : rule ∈ rules) :
    ∃ e, rule.Defines a e ∧ rule.column.table = e.table ∧ ∀ x ∈ e.vars, Known given rules x := by
  induction h with
  | nil => cases hr
  | snoc _ hd hc _ hv ih =>
    rcases List.mem_append.1 hr with hr | hr
    · obtain ⟨e, he, ht, hk⟩ := ih hr
      exact ⟨e, he, ht, fun x hx => (hk x hx).append⟩
    · obtain rfl := List.mem_singleton.1 hr
      exact ⟨_, hd, by rw [hc]; rfl, fun x hx => (hv x hx).append⟩

end Derived

/-! ## Rounds -/

theorem forall₂_exists_left {α β : Type} {R : α → β → Prop} {xs : List α} {ys : List β}
    (h : List.Forall₂ R xs ys) {y : β} (hy : y ∈ ys) : ∃ x ∈ xs, R x y := by
  induction h with
  | nil => cases hy
  | cons hxy _ ih =>
    rcases List.mem_cons.1 hy with rfl | hy
    · exact ⟨_, List.mem_cons_self, hxy⟩
    · obtain ⟨x, hx, hr⟩ := ih hy
      exact ⟨x, List.mem_cons_of_mem _ hx, hr⟩

theorem forall₂_comp {α β γ : Type} {R : α → β → Prop} {S : β → γ → Prop} {T : α → γ → Prop}
    {xs : List α} {ys : List β} {zs : List γ} (h : List.Forall₂ R xs ys) (h' : List.Forall₂ S ys zs)
    (hT : ∀ x y z, R x y → S y z → T x z) :
    List.Forall₂ T xs zs := by
  induction h generalizing zs with
  | nil => cases h'; exact .nil
  | cons hxy _ ih =>
    cases h' with
    | cons hyz h' => exact .cons (hT _ _ _ hxy hyz) (ih h')

theorem exists_forall₂ {α β γ : Type} {R : α → γ → Prop} {S : β → γ → Prop}
    {xs : List α} {ys : List β} (h : List.Forall₂ (fun x y => ∃ z, R x z ∧ S y z) xs ys) :
    ∃ zs, List.Forall₂ R xs zs ∧ List.Forall₂ S ys zs := by
  induction h with
  | nil => exact ⟨[], .nil, .nil⟩
  | cons hxy _ ih =>
    obtain ⟨z, hr, hs⟩ := hxy
    obtain ⟨zs, hrs, hss⟩ := ih
    exact ⟨z :: zs, .cons hr hrs, .cons hs hss⟩

/-- The variables of a list of constraints. -/
def Occurs (cs : List Circuit) (x : Leaf) : Prop := ∃ c ∈ cs, x ∈ c.expr.vars

/-- A constraint after some rounds: it reads known variables only, and where the rules hold it has
the value it started with. -/
structure Circuit.LoweredFrom (a : Arena) (given : Leaf → Prop) (rules : List Rule)
    (c d : Circuit) : Prop where
  arena_eq : d.arena = a
  isBase_eq : d.expr.isBase = c.expr.isBase
  known : ∀ x ∈ d.expr.vars, Known given rules x
  value_eq : ∀ ρ, (∀ rule ∈ rules, rule.Holds a ρ) → d.expr.value ρ = c.expr.value ρ

/-- The node has a tree of at most this degree. -/
def Arena.DegreeLe (a : Arena) (target : Int) (i : Nat) : Prop :=
  ∃ e, a.Unfolds i e ∧ (e.degree : Int) ≤ target

theorem Arena.DegreeLe.mono {a b : Arena} {target : Int} {i : Nat} (h : a.DegreeLe target i)
    (hab : a.Extends b) :
    b.DegreeLe target i := by
  obtain ⟨e, he, hd⟩ := h
  exact ⟨e, hab.unfolds he, hd⟩

/-- What is kept by every round of lowering the constraints `cs`. -/
structure Lowered.Sound (limits : Limits) (cs : List Circuit) (a : Arena)
    (low : Lowered) : Prop where
  derived : Derived a limits (Occurs cs) low.rules.toList
  bounded : ∀ rule ∈ low.rules.toList, a.DegreeLe limits.target rule.constraint
  constraints : List.Forall₂ (Circuit.LoweredFrom a (Occurs cs) low.rules.toList) cs low.constraints

theorem Lowered.sound_start (limits : Limits) {cs : List Circuit} {a : Arena}
    (h : ∀ c ∈ cs, c.arena = a) : Lowered.Sound limits cs a ⟨cs, #[]⟩ :=
  ⟨.nil, by simp,
    List.forall₂_same.2 fun c hc => ⟨h c hc, rfl, fun _ hx => .inl ⟨c, hc, hx⟩, fun _ _ => rfl⟩⟩

theorem Rule.Holds.of_extends {a b : Arena} (hab : a.Extends b) {rule : Rule} {e : Expr}
    (hd : rule.Defines a e) {ρ : Assignment} (h : rule.Holds b ρ) : rule.Holds a ρ :=
  hd.holds_iff.2 ((hd.mono hab).holds_iff.1 h)

/-- The invariant is kept when a factor is replaced by the first free column and the rule of the
column is added. -/
theorem Lowered.Sound.substitute {limits : Limits} {cs : List Circuit} {a b : Arena} {low : Lowered}
    (h : low.Sound limits cs a) (hab : a.Extends b) {rule : Rule} {e : Expr}
    (hdef : rule.Defines b e) (hbound : b.DegreeLe limits.target rule.constraint)
    (hcolumn : rule.column = limits.column low.rules.toList e) (hdeg : 1 < e.degree)
    (hknown : ∀ x ∈ e.vars, Known (Occurs cs) low.rules.toList x) {ds : List Circuit}
    (hds : List.Forall₂
      (fun d d' => d'.arena = b ∧ Rewritten e (.leaf (.input rule.column)) d.expr d'.expr)
      low.constraints ds) :
    Lowered.Sound limits cs b ⟨ds, low.rules.push rule⟩ := by
  have hlast : rule ∈ low.rules.toList ++ [rule] :=
    List.mem_append_right _ (List.mem_singleton_self _)
  refine ⟨?_, ?_, ?_⟩
  · rw [Array.toList_push]
    exact .snoc (h.derived.mono hab) hdef hcolumn hdeg hknown
  · intro r hr
    rw [Array.toList_push] at hr
    rcases List.mem_append.1 hr with hr | hr
    · exact (h.bounded r hr).mono hab
    · exact List.mem_singleton.1 hr ▸ hbound
  · rw [Array.toList_push]
    refine forall₂_comp h.constraints hds fun c d d' hcd ⟨hd', hrw⟩ =>
      ⟨hd', ?_, fun x hx => ?_, fun ρ hρ => ?_⟩
    · -- the column stands in the table of the factor's values
      rw [← hcd.isBase_eq]
      exact hrw.isBase_eq (by rw [hcolumn, Limits.isBase_column])
    · rcases hrw.mem_vars hx with hx | hx
      · exact (hcd.known x hx).append
      · exact .inr ⟨rule, hlast, Expr.mem_vars_leaf hx⟩
    · rw [hrw.value_eq (hdef.holds_iff.1 (hρ rule hlast))]
      refine hcd.value_eq ρ fun r hr => ?_
      obtain ⟨f, hf, -⟩ := h.derived.exists_defines hr
      exact (hρ r (List.mem_append_left _ hr)).of_extends hab hf

namespace Lower

theorem build_of_ok {α : Type} {x : Build α} {a b : Arena} {v : α} (h : x a = .ok v b) :
    build x a = .ok v b := by
  simp [build, EStateM.adaptExcept, h]

theorem circuit_of_lt {b : Arena} {i : Nat} (h : i < b.size) :
    ∃ c, circuit i b = .ok c b ∧ c.arena = b ∧ c.id = i := by
  obtain ⟨c, hc⟩ := Arena.exists_circuit? h
  exact ⟨c, by simp [circuit, hc], Arena.circuit?_eq_some.1 hc⟩

theorem circuits_of_lt {b : Arena} (hs : List Handle) (h : ∀ x ∈ hs, x.id < b.size) :
    ∃ cs, (hs.mapM (fun x => circuit x.id) : Lower (List Circuit)) b = .ok cs b ∧
      List.Forall₂ (fun x c => c.arena = b ∧ c.id = x.id) hs cs := by
  induction hs with
  | nil => exact ⟨[], rfl, .nil⟩
  | cons x hs ih =>
    obtain ⟨c, hc, hx⟩ := circuit_of_lt (h x (by simp))
    obtain ⟨cs, hcs, hxs⟩ := ih fun y hy => h y (by simp [hy])
    refine ⟨c :: cs, ?_, .cons hx hxs⟩
    rw [List.mapM_cons, Build.bind_of_ok hc, Build.bind_of_ok hcs]
    rfl

theorem checkedRule_of_ok {target : Int} {c : Circuit} {rule : Rule}
    (hr : Rule.ofCircuit c = .ok rule) (hd : (c.degree : Int) ≤ target) :
    checkedRule target rule.column c = .ok rule := by
  have hneg : ¬ target < (c.degree : Int) := by omega
  simp [checkedRule, hr, hneg, bind, Except.bind, pure, Except.pure]

/-- What a round does that replaces a chosen node: the node is defined by a rule for the first free
column, and the constraints are rebuilt with the column in its place. -/
structure Replaced (limits : Limits) (low : Lowered) (a : Arena) (chosen : Circuit) (rule : Rule)
    (low' : Lowered) (b : Arena) : Prop where
  arena : a.Extends b
  rules_eq : low'.rules = low.rules.push rule
  column_eq : rule.column = limits.column low.rules.toList chosen.expr
  defines : rule.Defines b chosen.expr
  bounded : b.DegreeLe limits.target rule.constraint
  rebuilt : ∃ v done, b.label? v = some (.leaf (.input rule.column)) ∧
    Rebuilt.Sound b chosen.id v done ∧
    List.Forall₂ (fun d d' => d'.arena = b ∧ ∃ x : Handle, done[d.id]? = some x ∧ d'.id = x.id)
      low.constraints low'.constraints

section

variable {limits : Limits} {a b : Arena} {low low' : Lowered} {chosen : Circuit} {rule : Rule}

theorem exists_replaced (hlow : ∀ d ∈ low.constraints, d.arena = a)
    (hpick : pickFactor limits.target low.constraints = .ok chosen) (harena : chosen.arena = a)
    (hdeg : 1 < chosen.expr.degree) (htarget : (chosen.expr.degree : Int) ≤ limits.target) :
    ∃ rule low' b, round limits low a = .ok low' b ∧ Replaced limits low a chosen rule low' b := by
  have hchosen : a.Unfolds chosen.id chosen.expr := harena ▸ chosen.unfolds_expr
  obtain ⟨column, hcolumn⟩ : ∃ column, column = limits.column low.rules.toList chosen.expr :=
    ⟨_, rfl⟩
  -- the column, the constraints with the column in place of the factor, and the difference of both
  obtain ⟨v, a₁, h₁, e₁, hv⟩ := Build.leaf_spec a (.input column)
  obtain ⟨done, roots, a₂, h₂, e₂, hdone, hroots⟩ :=
    Build.substitute_spec (low.constraints.map Circuit.id) (by
      intro i hi
      obtain ⟨d, hd, rfl⟩ := List.mem_map.1 hi
      exact e₁.lt (hlow d hd ▸ d.isLt)) chosen.id (Arena.lt_of_label? hv)
  rw [List.forall₂_map_left_iff] at hroots
  obtain ⟨k, b, h₃, e₃, hk⟩ :=
    Build.sub_subtracts (e₂.label? hv) (e₂.unfolds (e₁.unfolds hchosen)) (by omega)
  obtain ⟨c, hc, rfl, rfl⟩ := circuit_of_lt hk.lt
  have hab : a.Extends c.arena := e₁.trans (e₂.trans e₃)
  have hlabel := e₃.label? (e₂.label? hv)
  have hrule : Rule.ofCircuit c = .ok ⟨column, chosen.id, c.id⟩ :=
    Rule.ofCircuit_eq_ok_iff.2 ⟨hk, rfl⟩
  obtain ⟨hdef, hcdeg⟩ := hk.defines (hab.unfolds hchosen) (by omega)
  obtain ⟨ds, h₄, hds⟩ := circuits_of_lt roots (b := c.arena) (by
    intro x hx
    obtain ⟨d, -, hd⟩ := forall₂_exists_left hroots hx
    exact e₃.lt (hdone.lt hd))
  refine ⟨⟨column, chosen.id, c.id⟩, ⟨ds, low.rules.push ⟨column, chosen.id, c.id⟩⟩, c.arena, ?_,
    hab, rfl, hcolumn, hdef, ⟨c.expr, c.unfolds_expr, by rw [← c.degree_eq]; omega⟩, v, done,
    hlabel, hdone.mono e₃, forall₂_comp hroots hds fun d x d' hx hd' => ⟨hd'.1, x, hx, hd'.2⟩⟩
  have hname₁ : a₁.name = a.name := e₁.name_eq
  have hname₂ : a₂.name = a.name := e₂.name_eq.trans hname₁
  have hchecked : checkedRule limits.target column c = .ok ⟨column, chosen.id, c.id⟩ :=
    checkedRule_of_ok hrule (by omega)
  rw [hname₁] at h₂
  rw [hname₂] at h₃
  rw [round, Build.bind_of_ok (show (get : Lower Arena) a = .ok a a from rfl), hpick,
    Build.bind_of_ok (show ofExcept (.ok chosen) a = .ok chosen a from rfl), nextColumn_eq,
    ← hcolumn, Build.input, Build.bind_of_ok (build_of_ok h₁), Build.bind_of_ok (build_of_ok h₂),
    Circuit.handle, harena, Build.bind_of_ok (build_of_ok h₃), Build.bind_of_ok hc, hchecked,
    Build.bind_of_ok (show ofExcept (.ok _) c.arena = .ok _ c.arena from rfl), Build.bind_of_ok h₄]
  rfl

namespace Replaced

/-- The constraints are rewritten: the column stands in the place of the chosen tree. -/
theorem rewritten (h : Replaced limits low a chosen rule low' b)
    (hlow : ∀ d ∈ low.constraints, d.arena = a) (harena : chosen.arena = a) :
    List.Forall₂
      (fun d d' => d'.arena = b ∧ Rewritten chosen.expr (.leaf (.input rule.column)) d.expr d'.expr)
      low.constraints low'.constraints := by
  obtain ⟨v, done, hv, hdone, hds⟩ := h.rebuilt
  refine ((List.forall₂_and_left _ _).2 ⟨hlow, hds⟩).imp ?_
  rintro d d' ⟨hd, hd'a, x, hx, hd'i⟩
  obtain ⟨e, e', he, he', hrw⟩ :=
    hdone.rewritten (h.arena.unfolds (harena ▸ chosen.unfolds_expr)) (.leaf hv) hx
  obtain rfl : d.expr = e := Circuit.expr_of_unfolds (by
    rw [hd]
    exact h.arena.unfolds_of_lt (hd ▸ d.isLt) he)
  obtain rfl : d'.expr = e' := Circuit.expr_of_unfolds (by rw [hd'a, hd'i]; exact he')
  exact ⟨hd'a, hrw⟩

/-- The chosen operation is gone, and no other has come. -/
theorem card_operations_lt (h : Replaced limits low a chosen rule low' b)
    (hlow : ∀ d ∈ low.constraints, d.arena = a) (hmem : chosen.id ∈ operations low.constraints) :
    (operations low'.constraints).card < (operations low.constraints).card := by
  obtain ⟨v, done, hv, hdone, hds⟩ := h.rebuilt
  refine hdone.card_operations_lt hv (fun d hd => hlow d hd ▸ h.arena) (fun d' hd' => ?_) hmem
  obtain ⟨d, hd, hd'a, x, hx, hd'i⟩ := forall₂_exists_left hds hd'
  exact ⟨hd'a, d, hd, x, hx, hd'i⟩

end Replaced

/-- A round succeeds, extends the arena, keeps the invariant and takes an operation out of the
constraints. -/
theorem round_spec {cs : List Circuit} (h : low.Sound limits cs a)
    (hex : ¬ maxDegree low.constraints ≤ limits.target) :
    ∃ low' b, round limits low a = .ok low' b ∧ a.Extends b ∧ low'.Sound limits cs b ∧
      (operations low'.constraints).card < (operations low.constraints).card := by
  have hlow : ∀ d ∈ low.constraints, d.arena = a := by
    intro d hd
    obtain ⟨c, -, hcd⟩ := forall₂_exists_left h.constraints hd
    exact hcd.arena_eq
  obtain ⟨chosen, c₀, hc₀, hpick, hca, hmod, hreach⟩ := pickFactor_spec limits.two_le_target hex
  obtain ⟨hdeg, htarget⟩ := Circuit.isModerate_iff.1 hmod
  have hop := chosen.isOperation hdeg
  have harena : chosen.arena = a := hca.trans (hlow c₀ hc₀)
  rw [chosen.degree_eq] at hdeg htarget
  obtain ⟨rule, low', b, hrun, hr⟩ := exists_replaced hlow hpick harena hdeg htarget
  -- the chosen node stands below a constraint, so it reads what the constraint reads
  have hknown : ∀ x ∈ chosen.expr.vars, Known (Occurs cs) low.rules.toList x := by
    obtain ⟨o₀, -, hlow₀⟩ := forall₂_exists_left h.constraints hc₀
    obtain ⟨f, hf, hsub⟩ := hreach.unfolds c₀.unfolds_expr
    obtain rfl : chosen.expr = f := Circuit.expr_of_unfolds (hca ▸ hf)
    exact fun x hx => hlow₀.known x (hsub x hx)
  have hsound :=
    h.substitute hr.arena hr.defines hr.bounded hr.column_eq hdeg hknown (hr.rewritten hlow harena)
  rw [← hr.rules_eq] at hsound
  exact ⟨low', b, hrun, hr.arena, hsound,
    hr.card_operations_lt hlow (mem_operations.2 ⟨c₀, hc₀, hreach, hca ▸ hop⟩)⟩

end

/-- Rounds succeed, and meet the target degree if there are more of them than operations in the
constraints. -/
theorem rounds_spec {limits : Limits} {cs : List Circuit} (n : Nat) {a : Arena} {low : Lowered}
    (h : low.Sound limits cs a) :
    ∃ low' b, rounds limits n low a = .ok low' b ∧ a.Extends b ∧ low'.Sound limits cs b ∧
      ((operations low.constraints).card < n → maxDegree low'.constraints ≤ limits.target) := by
  induction n generalizing a low with
  | zero => exact ⟨low, a, rfl, .refl a, h, by omega⟩
  | succ n ih =>
    rw [rounds]
    split
    · rename_i hle
      exact ⟨low, a, rfl, .refl a, h, fun _ => hle⟩
    · rename_i hex
      obtain ⟨low₁, a₁, h₁, e₁, hs₁, hlt⟩ := round_spec h hex
      obtain ⟨low₂, a₂, h₂, e₂, hs₂, hle⟩ := ih hs₁
      exact ⟨low₂, a₂, by rw [Build.bind_of_ok h₁, h₂], e₁.trans e₂, hs₂, fun hn => hle (by omega)⟩

/-- Lowering the constraints of one arena succeeds, extends the arena and keeps the invariant. -/
theorem bucket_spec (limits : Limits) {cs : List Circuit} {a : Arena} (h : ∀ c ∈ cs, c.arena = a) :
    ∃ low b, bucket limits cs a = .ok low b ∧ a.Extends b ∧ low.Sound limits cs b := by
  rw [bucket, Build.bind_of_ok (show (get : Lower Arena) a = .ok a a from rfl)]
  obtain ⟨low, b, hrun, hab, hs, -⟩ := rounds_spec (a.size + 1) (Lowered.sound_start limits h)
  exact ⟨low, b, hrun, hab, hs⟩

/-- The rounds granted suffice: what remains has the target degree at most. -/
theorem maxDegree_le_of_bucket {limits : Limits} {cs : List Circuit} {a b : Arena} {low : Lowered}
    (h : ∀ c ∈ cs, c.arena = a) (hrun : bucket limits cs a = .ok low b) :
    maxDegree low.constraints ≤ limits.target := by
  rw [bucket, Build.bind_of_ok (show (get : Lower Arena) a = .ok a a from rfl)] at hrun
  obtain ⟨low', b', hrun', -, -, hle⟩ := rounds_spec (a.size + 1) (Lowered.sound_start limits h)
  rw [hrun] at hrun'
  cases hrun'
  exact hle (Nat.lt_succ_of_le (card_operations_le h))

end Lower

end AirCompiler
