import AirCompiler.Proofs.Evaluation.Filling
import AirCompiler.Proofs.System.Buckets
import AirCompiler.Proofs.System.Completion

/-!
# Derived columns complete a trace

The fill rules of a lowered system, main columns before auxiliary ones, stand in an order in which
no rule reads its own column or one that is filled after it: within a table because rules are
derived, and across the tables because rules of main columns read nothing but main cells. So the
steps of both loops may follow one another (`FillStep.Precedes`), and afterwards every rule holds in
every window, which gives lowered constraints the values of the given ones
(`DerivedColumns.fill_completes`).
-/

namespace AirCompiler

/-! ## Order of derived rules -/

theorem Rule.Defines.unique {a : Arena} {rule : Rule} {e e' : Expr} (h : rule.Defines a e)
    (h' : rule.Defines a e') : e = e' :=
  h.expression.unique h'.expression

namespace Derived

variable {a : Arena} {limits : Limits} {given : Leaf → Prop} {rules : List Rule}

/-- The first rule leaves the column of the second alone. -/
def LeavesTo (a : Arena) (p q : Rule) : Prop := ∀ e, p.Defines a e → .input q.column ∉ e.vars

theorem not_mem_own (h : Derived a limits given rules) (hg : ∀ x, given x → limits.Admits x)
    {p : Rule} (hp : p ∈ rules) :
    LeavesTo a p p := by
  induction h with
  | nil => cases hp
  | @snoc rules last e hr hd hc _ hv ih =>
    rcases List.mem_append.1 hp with hp | hp
    · exact ih hp
    · obtain rfl := List.mem_singleton.1 hp
      intro e' he' hm
      rw [he'.unique hd] at hm
      exact hr.ne_column_of_known hg e (hv _ hm) (by rw [hc])

/-- No rule reads the column of a rule after it. -/
theorem pairwise (h : Derived a limits given rules) (hg : ∀ x, given x → limits.Admits x) :
    rules.Pairwise fun p q => p.column ≠ q.column ∧ LeavesTo a p q := by
  induction h with
  | nil => exact .nil
  | @snoc rules last e hr hd hc _ hv ih =>
    refine List.pairwise_append.2 ⟨ih, List.pairwise_singleton _ _, fun p hp q hq => ?_⟩
    obtain rfl := List.mem_singleton.1 hq
    refine ⟨hc ▸ hr.column_ne e hp, fun e' he' hm => ?_⟩
    obtain ⟨f, hf, -, hk⟩ := hr.exists_defines hp
    rw [he'.unique hf] at hm
    exact hr.ne_column_of_known hg e (hk _ hm) (by rw [hc])

/-- A rule of a main column goes back to a given main column. -/
theorem mainColumns_pos (h : Derived a limits given rules) (hg : ∀ x, given x → limits.Admits x)
    {rule : Rule} (hr : rule ∈ rules) (hmain : rule.column.table = .main) :
    0 < limits.mainColumns := by
  induction h generalizing rule with
  | nil => cases hr
  | @snoc rules last e _ _ hc hdeg hv ih =>
    rcases List.mem_append.1 hr with hr | hr
    · exact ih hr hmain
    · obtain rfl := List.mem_singleton.1 hr
      have hb : e.isBase = true := by
        rw [hc] at hmain
        exact Expr.isBase_of_table hmain
      -- an expression of positive degree reads a variable, here a main column: a given one, or that
      -- of an earlier rule
      obtain ⟨x, hx⟩ := Expr.vars_ne_nil (by omega : 0 < e.degree)
      obtain ⟨c, hct, rfl⟩ := Expr.exists_main_of_isBase hb hx
      rcases hv _ hx with hgiven | ⟨r, hr, heq⟩
      · have hc : 0 ≤ c.column ∧ c.column < limits.columns c.table := hg _ hgiven
        rw [hct, Limits.columns] at hc
        omega
      · exact ih hr (by rw [← Leaf.input.inj heq, hct])

/-- Reading no cell that a rule introduces is reading no cell of its column, in either row. -/
theorem avoids (h : Derived a limits given rules) (hg : ∀ x, given x → limits.Admits x)
    {p q : Rule} (hp : p ∈ rules) (hq : q ∈ rules) (hpq : LeavesTo a p q) {e : Expr}
    (he : p.Defines a e) : e.Avoids q.column.table q.column.column := by
  rintro c hc ⟨htable, hcolumn⟩
  obtain ⟨f, hf, -, hk⟩ := h.exists_defines hp
  obtain ⟨hrow, hle, -⟩ := h.column_bounds hq
  rcases hk _ (hf.unique he ▸ hc) with hgiven | ⟨r, hr, heq⟩
  · have := (hg _ hgiven).2
    rw [htable, hcolumn] at this
    omega
  · have hcr : c = r.column := Leaf.input.inj heq
    have hcurrent : c.row = q.column.row := by rw [hcr, (h.column_bounds hr).1, hrow]
    exact hpq e he (Cell.ext hcurrent htable hcolumn ▸ hc)

end Derived

/-! ## Fill rules -/

/-- The rules of all buckets with their roles, in the order in which they were introduced. -/
def Substitutions.tagged (subs : Substitutions) : List (Role × Rule) :=
  Role.all.flatMap fun role => (subs.rules.get role).map fun rule => (role, rule)

namespace Substitutions

variable {subs : Substitutions}

theorem map_tagged (subs : Substitutions) :
    subs.tagged.map Prod.snd = Role.all.flatMap subs.rules.get := by
  simp only [tagged, List.map_flatMap, List.map_map, Function.comp_def, List.map_id']

theorem mem_tagged {role : Role} {rule : Rule} :
    (role, rule) ∈ subs.tagged ↔ rule ∈ subs.rules.get role := by
  simp only [tagged, List.mem_flatMap, List.mem_map, Prod.mk.injEq]
  constructor
  · rintro ⟨_, -, _, hr, rfl, rfl⟩
    exact hr
  · exact fun h => ⟨role, role.mem_all, rule, h, rfl, rfl⟩

end Substitutions

namespace DerivedColumns

theorem fillRule?_of_defines {a : Arena} {rule : Rule} {e : Expr}
    (h : rule.Defines a e) (role : Role) :
    fillRule? a role rule = some ⟨rule.column.column, role, e⟩ := by
  obtain ⟨c, hc, hexpr⟩ := h.expression.exists_circuit
  rw [fillRule?, hc, Option.map_some, hexpr]

theorem defines_of_fillRule? {a : Arena} {rule : Rule} {role : Role} {table : Table} {f : FillRule}
    (hdef : ∃ e, rule.Defines a e)
    (h : (if rule.column.table = table then fillRule? a role rule else none) = some f) :
    f.role = role ∧ rule.column.table = table ∧ rule.column.column = f.column ∧
      rule.Defines a f.expr := by
  obtain ⟨e, he⟩ := hdef
  split at h
  · rename_i htable
    rw [fillRule?_of_defines he, Option.some.injEq] at h
    subst h
    exact ⟨rfl, htable, rfl, he⟩
  · cases h

/-- The fill rules of a table come from the rules of its columns, in their order. -/
theorem rules_ofSubstitutions (a : Arena) (subs : Substitutions) (shape : Shape) (table : Table) :
    (ofSubstitutions a subs shape).rules table =
      subs.tagged.filterMap fun p => if p.2.column.table = table then fillRule? a p.1 p.2
        else none := by
  rw [Substitutions.tagged, List.filterMap_flatMap]
  cases table with
  | main =>
    refine List.flatMap_congr fun role _ => ?_
    simp [Substitutions.mainRules, List.filterMap_filter, List.filterMap_map, Rule.isMain]
  | aux =>
    refine List.flatMap_congr fun role _ => ?_
    simp [Substitutions.auxRules, List.filterMap_filter, List.filterMap_map, Rule.not_isMain]

theorem length_rules {a : Arena} {subs : Substitutions}
    (h : ∀ role, ∀ rule ∈ subs.rules.get role, ∃ e, rule.Defines a e) (shape : Shape)
    (table : Table) :
    ((ofSubstitutions a subs shape).rules table).length =
      (Role.all.flatMap subs.rules.get).countP fun rule => rule.column.table = table := by
  rw [rules_ofSubstitutions, List.length_filterMap_eq_countP, ← Substitutions.map_tagged,
    List.countP_map]
  refine List.countP_congr fun ⟨role, rule⟩ hm => ?_
  obtain ⟨e, he⟩ := h role rule (Substitutions.mem_tagged.1 hm)
  simp [fillRule?_of_defines he]

/-- A fill rule comes from a rule of its bucket. -/
theorem exists_of_mem_rules {a : Arena} {subs : Substitutions}
    (h : ∀ role, ∀ rule ∈ subs.rules.get role, ∃ e, rule.Defines a e) {shape : Shape}
    {table : Table} {f : FillRule} (hf : f ∈ (ofSubstitutions a subs shape).rules table) :
    ∃ rule ∈ subs.rules.get f.role, rule.column.table = table ∧ rule.column.column = f.column ∧
      rule.Defines a f.expr := by
  rw [rules_ofSubstitutions] at hf
  obtain ⟨⟨role, rule⟩, hm, hfill⟩ := List.mem_filterMap.1 hf
  have hr := Substitutions.mem_tagged.1 hm
  obtain ⟨rfl, hrule⟩ := defines_of_fillRule? (h role rule hr) hfill
  exact ⟨rule, hr, hrule⟩

end DerivedColumns

namespace Substitutions

variable (subs : Substitutions)

theorem filter_main : Role.all.flatMap subs.mainRules =
    (Role.all.flatMap subs.rules.get).filter fun rule => rule.column.table = .main := by
  rw [List.filter_flatMap]
  rfl

theorem filter_aux : Role.all.flatMap subs.auxRules =
    (Role.all.flatMap subs.rules.get).filter fun rule => rule.column.table = .aux := by
  rw [List.filter_flatMap, ← Rule.not_isMain]
  rfl

theorem total_eq_length {α : Type} (f : Role → List α) :
    (Buckets.ofFn f).total = (Role.all.flatMap f).length := by
  simp [Buckets.total, Buckets.ofFn, Role.all, Nat.add_assoc]

theorem mainCount_eq : subs.mainCount = (Role.all.flatMap subs.rules.get).countP fun rule =>
    rule.column.table = .main := by
  rw [mainCount, total_eq_length, filter_main, List.countP_eq_length_filter]

theorem auxCount_eq : subs.auxCount = (Role.all.flatMap subs.rules.get).countP fun rule =>
    rule.column.table = .aux := by
  rw [auxCount, total_eq_length, filter_aux, List.countP_eq_length_filter]

end Substitutions

/-- The tables are widened by the columns of all rules. -/
theorem ConstraintSystem.columns_combine (s : ConstraintSystem)
    (subs : Substitutions) (table : Table) :
    (s.combine subs).shape.columns table =
      s.shape.columns table + (Role.all.flatMap subs.rules.get).countP fun rule =>
        rule.column.table = table := by
  cases table with
  | main => rw [← subs.mainCount_eq]; rfl
  | aux => rw [← subs.auxCount_eq]; rfl

/-! ## A lowered system -/

/-- A system with variables within its shape that was lowered, in terms of the numbers of columns at
the start. -/
structure ConstraintSystem.LowersTo (s : ConstraintSystem) (limits₀ : Limits) (subs : Substitutions)
    (s' : ConstraintSystem) : Prop where
  validate : s.validate = .ok ()
  columns_eq : ∀ table, limits₀.columns table = s.shape.columns table
  stage : ∃ limits, Stage s limits₀ Role.all s' limits subs
  within : ∀ role, ∀ c ∈ s.circuits role, ∀ x ∈ c.expr.vars, s.shape.Admits x
  auxColumns_nonneg : 0 ≤ s.shape.auxColumns

namespace ConstraintSystem.LowersTo

variable {s s' : ConstraintSystem} {limits₀ : Limits} {subs : Substitutions}

theorem derived (h : s.LowersTo limits₀ subs s') :
    Derived s'.arena limits₀ (fun x => ∃ role, Occurs (s.circuits role) x)
      (Role.all.flatMap subs.rules.get) := by
  obtain ⟨_, hs⟩ := h.stage
  exact hs.derived

theorem given (h : s.LowersTo limits₀ subs s') (x : Leaf)
    (hx : ∃ role, Occurs (s.circuits role) x) : limits₀.Admits x := by
  obtain ⟨role, c, hc, hx⟩ := hx
  have := h.within role c hc x hx
  cases x with
  | constant _ => trivial
  | input c => exact ⟨this.1, by rw [h.columns_eq]; exact this.2⟩
  | challenge _ => trivial

theorem mem_all (subs : Substitutions) {role : Role} {rule : Rule}
    (hr : rule ∈ subs.rules.get role) : rule ∈ Role.all.flatMap subs.rules.get :=
  List.mem_flatMap.2 ⟨role, role.mem_all, hr⟩

/-- What a rule sets its column to: an expression over variables of its own bucket and columns of
its rules. -/
theorem exists_defines (h : s.LowersTo limits₀ subs s') {role : Role} {rule : Rule}
    (hr : rule ∈ subs.rules.get role) :
    ∃ e, rule.Defines s'.arena e ∧ rule.column.table = e.table ∧
      ∀ x ∈ e.vars, Known (Occurs (s.circuits role)) (subs.rules.get role) x := by
  obtain ⟨_, hs⟩ := h.stage
  obtain ⟨⟨_, hd⟩, -⟩ := hs.bucket role role.mem_all
  exact hd.exists_defines hr

/-- New columns stand between the given ones and the end of the widened rows. -/
theorem column_bounds (h : s.LowersTo limits₀ subs s') {role : Role} {rule : Rule}
    (hr : rule ∈ subs.rules.get role) :
    rule.column.row = .current ∧ 0 ≤ rule.column.column ∧
      s.shape.columns rule.column.table ≤ rule.column.column ∧
      rule.column.column < (s'.combine subs).shape.columns rule.column.table := by
  obtain ⟨_, hs⟩ := h.stage
  obtain ⟨hrow, hle, hlt⟩ := h.derived.column_bounds (mem_all subs hr)
  rw [h.columns_eq] at hle hlt
  refine ⟨hrow, ?_, hle, by rw [columns_combine, hs.shape_eq]; exact hlt⟩
  cases ht : rule.column.table with
  | main =>
    have hpos := h.derived.mainColumns_pos h.given (mem_all subs hr) ht
    have hmain : limits₀.mainColumns = s.shape.mainColumns := h.columns_eq .main
    rw [ht, Shape.columns] at hle
    omega
  | aux =>
    have haux := h.auxColumns_nonneg
    rw [ht, Shape.columns] at hle
    omega

/-- Variables and columns of a bucket can be read in its windows. -/
theorem visible (h : s.LowersTo limits₀ subs s') {challenges : Array Scalar}
    (hchallenges : s.shape.challenges ≤ challenges.size) {role : Role} {x : Leaf}
    (hx : Known (Occurs (s.circuits role)) (subs.rules.get role) x) :
    Visible (s'.combine subs).shape.columns challenges role x := by
  obtain ⟨_, hs⟩ := h.stage
  rcases hx with ⟨c, hc, hx⟩ | ⟨rule, hr, rfl⟩
  · have hadmits := h.within role c hc x hx
    cases x with
    | constant _ => trivial
    | input cell =>
      refine ⟨hadmits.1, ?_, fun hnext => ?_⟩
      · have := hadmits.2
        rw [columns_combine, hs.shape_eq]
        omega
      · -- validation keeps the next row out of single-row buckets
        obtain ⟨handle, hm, hcircuit⟩ := mem_circuits hc
        obtain ⟨c', hc', hsingle⟩ := validate_eq_ok h.validate hm
        rw [hcircuit, Option.some.injEq] at hc'
        subst hc'
        by_contra hdual
        have := Circuit.usesNextRow_iff.2 ⟨cell, hnext, hx⟩
        rw [hsingle (by simpa using hdual)] at this
        cases this
    | challenge i => exact ⟨hadmits.1, Int.lt_of_lt_of_le hadmits.2 hchallenges⟩
  · obtain ⟨hrow, h₀, -, hlt⟩ := h.column_bounds hr
    exact ⟨h₀, hlt, fun hnext => by rw [hrow] at hnext; cases hnext⟩

theorem exists_rule (h : s.LowersTo limits₀ subs s') {table : Table} {f : FillRule}
    (hf : f ∈ (DerivedColumns.ofSubstitutions s'.arena subs s.shape).rules table) :
    ∃ rule ∈ subs.rules.get f.role, rule.column.table = table ∧ rule.column.column = f.column ∧
      rule.Defines s'.arena f.expr :=
  DerivedColumns.exists_of_mem_rules (fun _ _ hr => (h.exists_defines hr).imp fun _ he => he.1) hf

theorem mem_rules {role : Role} {rule : Rule} (hr : rule ∈ subs.rules.get role) {e : Expr}
    (he : rule.Defines s'.arena e) :
    ⟨rule.column.column, role, e⟩ ∈ (DerivedColumns.ofSubstitutions s'.arena subs s.shape).rules
      rule.column.table := by
  rw [DerivedColumns.rules_ofSubstitutions]
  refine List.mem_filterMap.2 ⟨(role, rule), Substitutions.mem_tagged.2 hr, ?_⟩
  rw [if_pos rfl, DerivedColumns.fillRule?_of_defines he]

theorem legal (h : s.LowersTo limits₀ subs s') {challenges : Array Scalar}
    (hchallenges : s.shape.challenges ≤ challenges.size) {height : Nat} {p : FillStep}
    (hp : p ∈ (DerivedColumns.ofSubstitutions s'.arena subs s.shape).allSteps height) :
    p.Legal height (s'.combine subs).shape.columns challenges := by
  obtain ⟨hrule, hrow⟩ := DerivedColumns.mem_allSteps.1 hp
  obtain ⟨rule, hr, htable, hcolumn, hdef⟩ := h.exists_rule hrule
  obtain ⟨e, he, hetable, hk⟩ := h.exists_defines hr
  obtain ⟨-, h₀, -, hlt⟩ := h.column_bounds hr
  obtain rfl := hdef.unique he
  refine ⟨hrow, ⟨_, _, hdef.expression⟩, fun x hx => h.visible hchallenges (hk x hx), hcolumn ▸ h₀,
    by rw [← hcolumn, ← htable]; exact hlt, ?_, fun hmain => ?_⟩
  · rw [← hcolumn, ← htable]
    exact h.derived.avoids h.given (mem_all subs hr) (mem_all subs hr)
      (h.derived.not_mem_own h.given (mem_all subs hr)) hdef
  · exact Expr.isBase_of_table (by rw [← hetable, htable, hmain])

/-- No fill rule reads a column that is filled after its own. -/
theorem pairwise_rules (h : s.LowersTo limits₀ subs s') (table : Table) :
    ((DerivedColumns.ofSubstitutions s'.arena subs s.shape).rules table).Pairwise fun f g =>
      f.expr.Avoids table g.column ∧ f.column ≠ g.column := by
  have hrules := h.derived.pairwise h.given
  rw [← Substitutions.map_tagged, List.pairwise_map] at hrules
  rw [DerivedColumns.rules_ofSubstitutions, List.pairwise_filterMap]
  refine hrules.imp_of_mem fun {p q} hp hq hpq f hf g hg => ?_
  have hp := Substitutions.mem_tagged.1 hp
  have hq := Substitutions.mem_tagged.1 hq
  obtain ⟨e, he, -⟩ := h.exists_defines hp
  obtain ⟨e', he', -⟩ := h.exists_defines hq
  obtain ⟨-, hpt, hpc, hpe⟩ := DerivedColumns.defines_of_fillRule? ⟨e, he⟩ hf
  obtain ⟨-, hqt, hqc, -⟩ := DerivedColumns.defines_of_fillRule? ⟨e', he'⟩ hg
  refine ⟨?_, fun heq => hpq.1 (Cell.ext ?_ (hpt.trans hqt.symm) (by rw [hpc, hqc, heq]))⟩
  · rw [← hqt, ← hqc]
    exact h.derived.avoids h.given (mem_all subs hp) (mem_all subs hq) hpq.2 hpe
  · rw [(h.column_bounds hp).1, (h.column_bounds hq).1]

/-- The steps of both tables stand in a possible order. -/
theorem pairwise_allSteps (h : s.LowersTo limits₀ subs s') {challenges : Array Scalar}
    (hchallenges : s.shape.challenges ≤ challenges.size) (height : Nat) :
    ((DerivedColumns.ofSubstitutions s'.arena subs s.shape).allSteps height).Pairwise
      FillStep.Precedes := by
  have hlegal : ∀ p ∈ (DerivedColumns.ofSubstitutions s'.arena subs s.shape).allSteps height,
      p.Legal height _ challenges :=
    fun p hp => h.legal hchallenges hp
  have htable : ∀ table, (DerivedColumns.steps table height
      ((DerivedColumns.ofSubstitutions s'.arena subs s.shape).rules table)).Pairwise
        FillStep.Precedes := fun table =>
    DerivedColumns.pairwise_steps (fun f hf => by
      obtain ⟨rule, hr, rfl, hcolumn, hdef⟩ := h.exists_rule hf
      rw [← hcolumn]
      exact h.derived.avoids h.given (mem_all subs hr) (mem_all subs hr)
        (h.derived.not_mem_own h.given (mem_all subs hr)) hdef) (h.pairwise_rules table)
  refine List.pairwise_append.2 ⟨htable .main, htable .aux, fun p hp q hq => ?_⟩
  -- rules of main columns read nothing of the other table
  have hpl := hlegal p (List.mem_append_left _ hp)
  obtain ⟨hpt, -⟩ := DerivedColumns.mem_steps.1 hp
  obtain ⟨hqt, -⟩ := DerivedColumns.mem_steps.1 hq
  refine ⟨fun c hc heq => ?_, fun heq => ?_⟩
  · obtain ⟨c', hc', hcell⟩ := Expr.exists_main_of_isBase (hpl.isBase hpt) hc
    cases hcell
    rw [hc', hqt] at heq
    cases heq.1
  · rw [hpt, hqt] at heq
    cases heq.1

theorem role_eq (h : s.LowersTo limits₀ subs s') {role role' : Role} {rule rule' : Rule}
    (hr : rule ∈ subs.rules.get role) (hr' : rule' ∈ subs.rules.get role')
    (heq : rule.column = rule'.column) : role = role' := by
  -- columns are numbered through all buckets, so no two rules share one
  have hnodup := h.derived.nodup
  rw [← Substitutions.map_tagged, List.map_map] at hnodup
  have :=
    List.inj_on_of_nodup_map hnodup (Substitutions.mem_tagged.2 hr)
      (Substitutions.mem_tagged.2 hr') heq
  exact congrArg Prod.fst this

/-- After filling, the rules of a bucket hold in all its windows. -/
theorem holds (h : s.LowersTo limits₀ subs s') {challenges : Array Scalar}
    {height : Nat} {t t' : Tables} (hf : Filled challenges height (s'.combine subs).shape.columns t
      ((DerivedColumns.ofSubstitutions s'.arena subs s.shape).allSteps height) t')
    {role : Role} {row : Nat} (hrow : row < DerivedColumns.filledRows role height) {rule : Rule}
    (hr : rule ∈ subs.rules.get role) :
    rule.Holds s'.arena (t'.window challenges role row).assignment := by
  obtain ⟨e, he, -⟩ := h.exists_defines hr
  obtain ⟨x, hx, hlift⟩ := hf.solved ⟨rule.column.table, ⟨rule.column.column, role, e⟩, row⟩
    (DerivedColumns.mem_allSteps.2 ⟨mem_rules hr he, hrow⟩)
  rw [he.holds_iff, ← hlift]
  simp only at hx
  simp only [Rows.assignment, Tables.itemAt?_window, (h.column_bounds hr).1, hx]
  rfl

end ConstraintSystem.LowersTo

theorem Tables.Sized.evalLifted {t : Tables} {height : Nat} {width : Table → Int}
    (ht : t.Sized height width) {challenges : Array Scalar} {role : Role} {row : Nat}
    (hrow : row < DerivedColumns.filledRows role height) {c : Circuit}
    (hc : ∀ x ∈ c.expr.vars, Visible width challenges role x) :
    c.expr.evalLifted (t.window challenges role row) ∅ =
      .ok (c.expr.value (t.window challenges role row).assignment) :=
  Circuit.evalLifted_of_readable fun x hx => ht.readable hrow (hc x hx)

/-- The tables `t'` complete `t`, for the system `s` that was lowered to `s'` with new rules. -/
structure Tables.Completes (s : ConstraintSystem) (subs : Substitutions) (s' : ConstraintSystem)
    (challenges : Array Scalar) (t t' : Tables) : Prop where
  sized : t'.Sized t.main.size (s'.combine subs).shape.columns
  /-- Cells of given columns are as they were. -/
  cell_eq : ∀ table row column, 0 ≤ column → column < s.shape.columns table →
    t'.cell? table row column = t.cell? table row column
  /-- Columns of transition rules are as they were in the last row. -/
  last_eq : ∀ rule ∈ subs.rules.get .transition,
    t'.cell? rule.column.table (t.main.size - 1) rule.column.column =
      t.cell? rule.column.table (t.main.size - 1) rule.column.column
  main_isBase : ∀ row ∈ t'.main, ∀ x ∈ row, x.isBase = true
  /-- In every window of a role the rules of its bucket are zero. -/
  rule_zero : ∀ role, ∀ rule ∈ subs.rules.get role, ∃ c,
    s'.arena.circuit? rule.constraint = some c ∧
    ∀ row < DerivedColumns.filledRows role t.main.size,
      c.expr.evalLifted (t'.window challenges role row) ∅ = .ok 0
  /-- In every window of a role the lowered constraints of its bucket have the values of the given
  ones. -/
  constraint_eq : ∀ role, List.Forall₂ (fun h h' : Handle => ∃ c d, s.arena.circuit? h.id = some c ∧
      s'.arena.circuit? h'.id = some d ∧ ∀ row < DerivedColumns.filledRows role t.main.size, ∃ x,
        c.expr.evalLifted (t'.window challenges role row) ∅ = .ok x ∧
          d.expr.evalLifted (t'.window challenges role row) ∅ = .ok x)
    (s.buckets.get role) (s'.buckets.get role)

namespace ConstraintSystem.LowersTo

variable {s s' : ConstraintSystem} {limits₀ : Limits} {subs : Substitutions}
  {challenges : Array Scalar} {t t' : Tables}

theorem kept (h : s.LowersTo limits₀ subs s') {height : Nat}
    (hf : Filled challenges height (s'.combine subs).shape.columns t
      ((DerivedColumns.ofSubstitutions s'.arena subs s.shape).allSteps height) t')
    {table : Table} {row : Nat} {column : Int} (h₀ : 0 ≤ column)
    (hne : ∀ role, ∀ rule ∈ subs.rules.get role, rule.column = ⟨.current, table, column⟩ →
      DerivedColumns.filledRows role height ≤ row) :
    t'.cell? table row column = t.cell? table row column := by
  refine hf.kept table row column h₀ fun p hp heq => ?_
  obtain ⟨hrule, hrow⟩ := DerivedColumns.mem_allSteps.1 hp
  obtain ⟨rule, hr, htable, hcolumn, -⟩ := h.exists_rule hrule
  have :=
    hne p.rule.role rule hr
      (Cell.ext (h.column_bounds hr).1 (htable.trans heq.1) (hcolumn.trans heq.2.2))
  omega

theorem rule_zero (h : s.LowersTo limits₀ subs s') {height : Nat}
    (hchallenges : s.shape.challenges ≤ challenges.size)
    (hf : Filled challenges height (s'.combine subs).shape.columns t
      ((DerivedColumns.ofSubstitutions s'.arena subs s.shape).allSteps height) t')
    {role : Role} {rule : Rule} (hr : rule ∈ subs.rules.get role) :
    ∃ c, s'.arena.circuit? rule.constraint = some c ∧
      ∀ row < DerivedColumns.filledRows role height,
        c.expr.evalLifted (t'.window challenges role row) ∅ = .ok 0 := by
  obtain ⟨e, he, -, hk⟩ := h.exists_defines hr
  obtain ⟨z, hz, hvars, -⟩ := he.constraint
  obtain ⟨c, hc, rfl⟩ := hz.exists_circuit
  refine ⟨c, hc, fun row hrow => ?_⟩
  have hvisible : ∀ x ∈ c.expr.vars, Visible (s'.combine subs).shape.columns challenges role x := by
    intro x hx
    refine h.visible hchallenges ?_
    rcases (hvars x).1 hx with rfl | hx
    · exact .inr ⟨rule, hr, rfl⟩
    · exact hk x hx
  obtain ⟨c', hc', hzero⟩ := h.holds hf hrow hr
  rw [hc, Option.some.injEq] at hc'
  rw [hf.sized.evalLifted hrow hvisible, hc', hzero]

theorem constraint_eq (h : s.LowersTo limits₀ subs s') {height : Nat}
    (hchallenges : s.shape.challenges ≤ challenges.size)
    (hf : Filled challenges height (s'.combine subs).shape.columns t
      ((DerivedColumns.ofSubstitutions s'.arena subs s.shape).allSteps height) t') (role : Role) :
    List.Forall₂
      (fun x x' : Handle => ∃ c d, s.arena.circuit? x.id = some c ∧
        s'.arena.circuit? x'.id = some d ∧
        ∀ row < DerivedColumns.filledRows role height, ∃ v,
          c.expr.evalLifted (t'.window challenges role row) ∅ = .ok v ∧
          d.expr.evalLifted (t'.window challenges role row) ∅ = .ok v)
      (s.buckets.get role) (s'.buckets.get role) := by
  obtain ⟨_, hs⟩ := h.stage
  obtain ⟨-, hl⟩ := hs.bucket role role.mem_all
  have hl :=
    (List.forall₂_and_left (p := fun x => x ∈ s.buckets.get role) _ _).2 ⟨fun _ hx => hx, hl⟩
  refine hl.imp ?_
  rintro x x' ⟨hx, c, d, hc, hd, hcd⟩
  have hmem : c ∈ s.circuits role := List.mem_filterMap.2 ⟨x, hx, hc⟩
  refine ⟨c, d, hc, hd, fun row hrow => ⟨_, hf.sized.evalLifted hrow fun v hv => ?_, ?_⟩⟩
  · exact h.visible hchallenges (.inl ⟨c, hmem, hv⟩)
  · rw [hf.sized.evalLifted hrow fun v hv => h.visible hchallenges (hcd.known v hv),
      hcd.value_eq _ fun rule hr => h.holds hf hrow hr]

end ConstraintSystem.LowersTo

/-! ## Completion -/

/-- Filling the derived columns of a lowered system, first those of the main table, succeeds and
completes the trace. -/
theorem DerivedColumns.fill_completes {s s' : ConstraintSystem} {target : Int}
    {subs : Substitutions}
    (hwithin : ∀ role, ∀ c ∈ s.circuits role, ∀ x ∈ c.expr.vars, s.shape.Admits x)
    (haux : 0 ≤ s.shape.auxColumns) (hlower : ConstraintSystem.lower target s = .ok subs s')
    {t : Tables} {challenges : Array Scalar}
    (hchallenges : (challenges.size : Int) = s.shape.challenges) (hsize : t.main.size = t.aux.size)
    (hwidth : ∀ table, ∀ row ∈ t.rows table, (row.size : Int) =
      (s'.combine subs).shape.columns table) (hbase : ∀ row ∈ t.main, ∀ x ∈ row, x.isBase = true) :
    ∃ t', (do
        (ofSubstitutions s'.arena subs s.shape).fillMain
        (ofSubstitutions s'.arena subs s.shape).fillAux challenges) t = .ok () t' ∧
      Tables.Completes s subs s' challenges t t' := by
  obtain ⟨hvalid, limits₀, limits, hmain₀, haux₀, hstage⟩ := ConstraintSystem.lower_spec hlower
  have h : s.LowersTo limits₀ subs s' :=
    ⟨hvalid, fun table => by cases table <;> assumption, ⟨limits, hstage⟩, hwithin, haux⟩
  have hsized : t.Sized t.main.size (s'.combine subs).shape.columns :=
    Tables.sized_of_forall hsize hwidth
  have hcolumns : ∀ table,
      s.shape.columns table + (((ofSubstitutions s'.arena subs s.shape).rules table).length : Int) =
      (s'.combine subs).shape.columns table := fun table => by
    rw [length_rules (fun role rule hr => (h.exists_defines hr).imp fun e he => he.1),
      ConstraintSystem.columns_combine, hstage.shape_eq]
  have hcells : t.MainIsBase := by
    intro row column x h₀ hx
    obtain ⟨entries, hentries, hx⟩ := Tables.mem_rows_iff.2 ⟨row, column, h₀, hx⟩
    exact hbase entries hentries x hx
  obtain ⟨t', hrun, hf⟩ :=
    fill_spec (d := ofSubstitutions s'.arena subs s.shape) hsized (hcolumns .main)
      (hcolumns .aux) hcells
    (fun p hp => h.legal hchallenges.ge hp) (h.pairwise_allSteps hchallenges.ge _)
  refine ⟨t', hrun, hf.sized, fun table row column h₀ hlt => ?_, fun rule hr => ?_,
    fun entries hentries x hx => ?_,
    fun role rule hr => h.rule_zero hchallenges.ge hf hr, h.constraint_eq hchallenges.ge hf⟩
  · refine h.kept hf h₀ fun role rule hr heq => ?_
    have := (h.column_bounds hr).2.2.1
    rw [heq] at this
    simp only at this
    omega
  · obtain ⟨hrow, h₀, -⟩ := h.column_bounds hr
    refine h.kept hf h₀ fun role rule' hr' heq => ?_
    rw [h.role_eq hr' hr (heq.trans (Cell.ext hrow.symm rfl rfl))]
    exact Nat.le_refl _
  · have hmem : ∃ entries ∈ t'.rows .main, x ∈ entries := ⟨entries, hentries, hx⟩
    obtain ⟨row, column, h₀, hcell⟩ := Tables.mem_rows_iff.1 hmem
    exact hf.mainIsBase row column x h₀ hcell

/-- Two rows for `cubes`, which takes one new column of each table. -/
def Tables.cubes : Tables :=
  ⟨#[#[.base 1, .base 0], #[.base .minusOne, .base 0]], #[#[.ext ⟨0, 0, 0⟩], #[.ext ⟨0, 0, 0⟩]]⟩

theorem DerivedColumns.fill_completes_cubes :
    ∃ subs s', ConstraintSystem.lower 2 .cubes = .ok subs s' ∧
      (s'.combine subs).shape = ⟨2, 1, 1⟩ ∧ ∃ t', (do
        (ofSubstitutions s'.arena subs ConstraintSystem.cubes.shape).fillMain
        (ofSubstitutions s'.arena subs ConstraintSystem.cubes.shape).fillAux #[.ext ⟨7, 1, 0⟩])
            .cubes = .ok () t' ∧
      Tables.Completes .cubes subs s' #[.ext ⟨7, 1, 0⟩] .cubes t' := by
  obtain ⟨subs, s', hlower, hshape⟩ : ∃ subs s', ConstraintSystem.lower 2 .cubes = .ok subs s' ∧
      (s'.combine subs).shape = ⟨2, 1, 1⟩ := exists_ok (by decide +kernel)
  have hwithin : ∀ role, ∀ c ∈ ConstraintSystem.cubes.circuits role, ∀ x ∈ c.expr.vars,
      ConstraintSystem.cubes.shape.Admits x := fun role => by cases role <;> decide +kernel
  have haux : 0 ≤ ConstraintSystem.cubes.shape.auxColumns := by decide +kernel
  have hchallenges : ((#[.ext ⟨7, 1, 0⟩] : Array Scalar).size : Int) =
      ConstraintSystem.cubes.shape.challenges := by
    decide +kernel
  have hwidth : ∀ table, ∀ row ∈ Tables.cubes.rows table,
      (row.size : Int) = (s'.combine subs).shape.columns table := by
    rw [hshape]
    intro table
    cases table <;> decide
  have hbase : ∀ row ∈ Tables.cubes.main, ∀ x ∈ row, x.isBase = true := by decide
  exact ⟨subs, s', hlower, hshape, fill_completes hwithin haux hlower hchallenges rfl hwidth hbase⟩

/-- A system whose shape announces a negative number of auxiliary columns. -/
def ConstraintSystem.negativeAux : ConstraintSystem := .ofBuild ⟨0, -1, 1⟩ do
  let c ← Build.challenge 0
  return ⟨[], [← Build.times (← Build.times c c) c], [], []⟩

/-- With a negative number of auxiliary columns the first derived one has no place, though the
widths are as announced. -/
theorem DerivedColumns.fill_fails_negativeAux :
    let s := ConstraintSystem.negativeAux
    let t : Tables := ⟨#[#[]], #[#[]]⟩
    let challenges : Array Scalar := #[.ext ⟨1, 2, 3⟩]
    (∀ role, ∀ c ∈ s.circuits role, ∀ x ∈ c.expr.vars, s.shape.Admits x) ∧
      (challenges.size : Int) = s.shape.challenges ∧
      t.main.size = t.aux.size ∧ (∀ row ∈ t.main, ∀ x ∈ row, x.isBase = true) ∧
      ∃ subs s', ConstraintSystem.lower 2 s = .ok subs s' ∧
        (∀ table, ∀ row ∈ t.rows table, (row.size : Int) = (s'.combine subs).shape.columns table) ∧
        ¬ ∃ t', (do
          (ofSubstitutions s'.arena subs s.shape).fillMain
          (ofSubstitutions s'.arena subs s.shape).fillAux challenges) t = .ok () t' := by
  intro s t challenges
  refine ⟨fun role => by cases role <;> decide +kernel, by decide +kernel, rfl, by decide, ?_⟩
  obtain ⟨subs, s', hlower, hshape, hfails⟩ : ∃ subs s', ConstraintSystem.lower 2 s = .ok subs s' ∧
      (s'.combine subs).shape = ⟨0, 0, 1⟩ ∧
      (match (do
          (ofSubstitutions s'.arena subs s.shape).fillMain
          (ofSubstitutions s'.arena subs s.shape).fillAux challenges : Fill Unit) t with
        | .ok _ _ => false
        | .error _ _ => true) = true := exists_ok (by decide +kernel)
  refine ⟨subs, s', hlower, fun table => ?_, fun ⟨t', ht'⟩ => ?_⟩
  · rw [hshape]
    cases table <;> decide
  · rw [ht'] at hfails
    cases hfails

end AirCompiler
