import AirCompiler.Proofs.Evaluation.DerivedColumns
import AirCompiler.Proofs.System.Totality

/-!
# Columns of a lowered system

Lowering numbers its new columns on from the shape, through all buckets, and a bucket reads no new
columns but its own.

* `Derived.columns_eq`: derived rules of one table take the columns after those in use, in order.
* `ConstraintSystem.validate_iff`: what validation checks, said of the cells that constraints refer
  to.
* `ConstraintSystem.Stage.cells_combine`: the cells of a lowered bucket and of its rules.
* `ConstraintSystem.lower_widens`: the shape of a lowered system and of the one combined with its
  rules.
-/

namespace AirCompiler

/-! ## Cells -/

def Leaf.cell? : Leaf → Option Cell
  | .input c => some c
  | _ => none

/-- The cells of an expression, from left to right. -/
def Expr.cells (e : Expr) : List Cell := e.vars.filterMap Leaf.cell?

theorem Leaf.cell?_eq_some {x : Leaf} {c : Cell} : x.cell? = some c ↔ x = .input c := by
  cases x <;> simp [cell?]

theorem Expr.mem_cells {e : Expr} {c : Cell} : c ∈ e.cells ↔ .input c ∈ e.vars := by
  simp [cells, Leaf.cell?_eq_some]

/-- The tables of the shape have the cell's column. -/
def Shape.Covers (shape : Shape) (c : Cell) : Prop := shape.HasColumn c.table c.column

instance (shape : Shape) : DecidablePred shape.Covers :=
  fun _ => inferInstanceAs (Decidable (shape.HasColumn _ _))

namespace ConstraintSystem

variable {s s' : ConstraintSystem} {limits₀ limits : Limits} {subs : Substitutions}
  {role : Role} {cell : Cell}

/-- The cells that the constraints of a bucket refer to. -/
def cells (s : ConstraintSystem) (role : Role) : List Cell :=
  (s.circuits role).flatMap fun c => c.expr.cells

/-- All columns are within the shape. -/
def InShape (s : ConstraintSystem) : Prop := ∀ role, ∀ cell ∈ s.cells role, s.shape.Covers cell

theorem mem_cells_iff : cell ∈ s.cells role ↔ Occurs (s.circuits role) (.input cell) := by
  simp [cells, Occurs, Expr.mem_cells]

theorem mem_cells_of_handle {x : Handle} (hx : x ∈ s.buckets.get role) {c : Circuit}
    (hc : s.arena.circuit? x.id = some c) (hcell : cell ∈ c.expr.cells) : cell ∈ s.cells role :=
  List.mem_flatMap.2 ⟨c, List.mem_filterMap.2 ⟨x, hx, hc⟩, hcell⟩

theorem exists_handle_of_mem_cells (h : cell ∈ s.cells role) :
    ∃ x ∈ s.buckets.get role, ∃ c, s.arena.circuit? x.id = some c ∧ cell ∈ c.expr.cells := by
  obtain ⟨c, hc, hcell⟩ := List.mem_flatMap.1 h
  obtain ⟨x, hx, hxc⟩ := mem_circuits hc
  exact ⟨x, hx, c, hxc, hcell⟩

/-! ## Validation -/

theorem checkConstraint_iff {index : Nat} {x : Handle} : s.checkConstraint role index x = .ok () ↔
    x.owner = s.arena.name ∧ ∃ c, s.arena.circuit? x.id = some c ∧
      (role ≠ .transition → ∀ cell ∈ c.expr.cells, cell.row ≠ .next) := by
  have hnext : ∀ c : Circuit, (!role.isDualRow && c.usesNextRow) = true ↔
      ¬ (role ≠ .transition → ∀ cell ∈ c.expr.cells, cell.row ≠ .next) := by
    intro c
    rw [Bool.and_eq_true, Bool.not_eq_true', isDualRow_eq_false, Circuit.usesNextRow_iff]
    simp only [Expr.mem_cells]
    grind
  unfold checkConstraint
  split
  · simp_all
  · cases s.arena.circuit? x.id with
    | none => simp
    | some c =>
      simp only [hnext]
      split <;> simp_all

theorem validate_iff : s.validate = .ok () ↔ ∀ role, ∀ x ∈ s.buckets.get role,
    x.owner = s.arena.name ∧ ∃ c, s.arena.circuit? x.id = some c ∧
      (role ≠ .transition → ∀ cell ∈ c.expr.cells, cell.row ≠ .next) := by
  constructor
  · intro h role x hx
    obtain ⟨index, hindex⟩ := List.getElem?_of_mem hx
    exact checkConstraint_iff.1 (checkConstraint_of_validate h hindex)
  · intro h
    refine forM_eq_ok_iff.2 fun role _ => forM_eq_ok_iff.2 fun p hp => ?_
    exact checkConstraint_iff.2
      (h role p.1 (List.mem_of_getElem? (List.mem_zipIdx_iff_getElem?.1 hp)))

theorem row_of_validate (h : s.validate = .ok ()) (hc : cell ∈ s.cells role)
    (hrow : cell.row = .next) : role = .transition := by
  obtain ⟨x, hx, c, hxc, hcell⟩ := exists_handle_of_mem_cells hc
  obtain ⟨-, d, hd, hnext⟩ := validate_iff.1 h role x hx
  rw [hxc, Option.some.injEq] at hd
  by_contra hrole
  exact hnext hrole cell (hd ▸ hcell) hrow

theorem mem_combine {x : Handle} : x ∈ (s.combine subs).buckets.get role ↔
    x ∈ s.buckets.get role ∨ ∃ rule ∈ subs.rules.get role, x = ⟨s.arena.name, rule.constraint⟩ := by
  simp only [combine, Buckets.get_ofFn, List.mem_append, List.mem_map, Substitutions.mainRules,
    Substitutions.auxRules, List.mem_filter]
  refine or_congr_right ⟨?_, ?_⟩
  · rintro ⟨rule, ⟨hr, -⟩ | ⟨hr, -⟩, rfl⟩ <;> exact ⟨rule, hr, rfl⟩
  · rintro ⟨rule, hr, rfl⟩
    cases hm : rule.isMain
    · exact ⟨rule, .inr ⟨hr, by simp [hm]⟩, rfl⟩
    · exact ⟨rule, .inl ⟨hr, hm⟩, rfl⟩

end ConstraintSystem

/-! ## Numbers of derived columns -/

namespace Derived

variable {a : Arena} {limits : Limits} {given : Leaf → Prop} {rules : List Rule}

/-- The rules of a table take the columns after those in use, in order. -/
theorem columns_eq (h : Derived a limits given rules) (table : Table) :
    (rules.filter fun rule => rule.column.table = table).map Rule.column =
      (List.range (rules.countP fun rule => rule.column.table = table)).map fun i : Nat =>
        ⟨.current, table, limits.columns table + i⟩ := by
  induction h with
  | nil => rfl
  | @snoc rules last e _ _ hc _ _ ih =>
    rw [List.filter_append, List.map_append, ih, List.countP_append]
    -- the last rule takes the next number of its own table, and leaves the other table as it is
    by_cases ht : e.table = table
    · have hlast : last.column = ⟨.current, table,
          limits.columns table + rules.countP fun rule => rule.column.table = table⟩ := by
        rw [hc, Limits.column, ht]
      simp [hlast, List.range_succ]
    · have hlast : last.column.table ≠ table := by rw [hc]; exact ht
      simp [hlast]

/-- Within its own table a rule reads columns before its own only. -/
theorem column_lt (h : Derived a limits given rules) (hg : ∀ x, given x → limits.Admits x)
    {rule : Rule} (hr : rule ∈ rules) {e : Expr} (he : rule.Defines a e) {cell : Cell}
    (hcell : cell ∈ e.cells) (ht : cell.table = rule.column.table) :
    cell.column < rule.column.column := by
  induction h with
  | nil => cases hr
  | @snoc rules last f hrules hd hc _ hv ih =>
    rcases List.mem_append.1 hr with hr | hr
    · exact ih hr
    · obtain rfl := List.mem_singleton.1 hr
      obtain rfl := hd.unique he
      have hcolumn : rule.column.column =
          limits.columns rule.column.table + rules.countP fun r =>
            r.column.table = rule.column.table := by
        rw [hc]
        rfl
      rw [hcolumn, ← ht]
      -- the last rule reads given cells, which the limits bound, and columns of rules before it
      rcases hv _ (Expr.mem_cells.1 hcell) with hx | ⟨r, hr, hx⟩
      · have hlt : cell.column < limits.columns cell.table := (hg _ hx).2
        omega
      · cases hx
        exact (hrules.column_bounds hr).2.2

end Derived

/-! ## Lowered buckets -/

namespace ConstraintSystem

variable {s s' : ConstraintSystem} {limits₀ limits : Limits} {subs : Substitutions}
  {role : Role} {cell : Cell}

namespace Stage

theorem exists_defines (h : Stage s limits₀ Role.all s' limits subs) {rule : Rule}
    (hr : rule ∈ subs.rules.get role) :
    ∃ e, rule.Defines s'.arena e ∧ rule.column.table = e.table ∧
      ∀ x ∈ e.vars, Known (Occurs (s.circuits role)) (subs.rules.get role) x := by
  obtain ⟨⟨_, hd⟩, -⟩ := h.bucket role role.mem_all
  exact hd.exists_defines hr

/-- What a lowered bucket and its rules are made of. -/
theorem known_combine (h : Stage s limits₀ Role.all s' limits subs) {x : Handle}
    (hx : x ∈ (s'.combine subs).buckets.get role) :
    x.owner = s'.arena.name ∧ ∃ c, s'.arena.circuit? x.id = some c ∧
      ∀ v ∈ c.expr.vars, Known (Occurs (s.circuits role)) (subs.rules.get role) v := by
  rcases mem_combine.1 hx with hx | ⟨rule, hr, rfl⟩
  · obtain ⟨-, hl⟩ := h.bucket role role.mem_all
    obtain ⟨_, -, _, d, -, hd, hcd⟩ := forall₂_exists_left hl hx
    exact ⟨h.owned role role.mem_all x hx, d, hd, hcd.known⟩
  · obtain ⟨e, he, -, hk⟩ := h.exists_defines hr
    obtain ⟨z, hz, hvars, -⟩ := he.constraint
    obtain ⟨c, hc, rfl⟩ := hz.exists_circuit
    refine ⟨rfl, c, hc, fun v hv => ?_⟩
    rcases (hvars v).1 hv with rfl | hv
    · exact .inr ⟨rule, hr, rfl⟩
    · exact hk v hv

theorem known_cell (hx : Known (Occurs (s.circuits role)) (subs.rules.get role) (.input cell)) :
    cell ∈ s.cells role ∨ cell ∈ (subs.rules.get role).map Rule.column := by
  rcases hx with hx | ⟨rule, hr, hx⟩
  · exact .inl (mem_cells_iff.2 hx)
  · cases hx
    exact .inr (List.mem_map_of_mem hr)

/-- A lowered bucket and its rules refer to cells of the bucket and to new columns of the bucket. -/
theorem cells_combine (h : Stage s limits₀ Role.all s' limits subs)
    (hc : cell ∈ (s'.combine subs).cells role) :
    cell ∈ s.cells role ∨ cell ∈ (subs.rules.get role).map Rule.column := by
  obtain ⟨x, hx, c, hxc, hcell⟩ := exists_handle_of_mem_cells hc
  obtain ⟨-, d, hd, hk⟩ := h.known_combine hx
  have heq : some c = some d := hxc.symm.trans hd
  cases heq
  exact known_cell (hk _ (Expr.mem_cells.1 hcell))

theorem column_bounds (h : Stage s limits₀ Role.all s' limits subs) {rule : Rule}
    (hr : rule ∈ subs.rules.get role) :
    rule.column.row = .current ∧ limits₀.columns rule.column.table ≤ rule.column.column ∧
      rule.column.column < limits₀.columns rule.column.table +
        (Role.all.flatMap subs.rules.get).countP fun r => r.column.table = rule.column.table :=
  h.derived.column_bounds (LowersTo.mem_all subs hr)

theorem row_of_mem_columns (h : Stage s limits₀ Role.all s' limits subs)
    (hc : cell ∈ (subs.rules.get role).map Rule.column) : cell.row = .current := by
  obtain ⟨rule, hr, rfl⟩ := List.mem_map.1 hc
  exact (h.column_bounds hr).1

theorem validate_combine (h : Stage s limits₀ Role.all s' limits subs) (hv : s.validate = .ok ()) :
    (s'.combine subs).validate = .ok () := by
  refine validate_iff.2 fun role x hx => ?_
  obtain ⟨howner, c, hc, hk⟩ := h.known_combine hx
  refine ⟨howner, c, hc, fun hrole cell hcell hrow => ?_⟩
  rcases known_cell (hk _ (Expr.mem_cells.1 hcell)) with hm | hm
  · exact hrole (row_of_validate hv hm hrow)
  · rw [h.row_of_mem_columns hm] at hrow
    cases hrow

end Stage

/-! ## The widened system -/

/-- What the bucket of a role may refer to once the system was lowered: columns of the system and
new columns of the same bucket; the next row only where the role allows it, and only in columns of
the system. -/
def MayRead (s : ConstraintSystem) (subs : Substitutions) (role : Role) (cell : Cell) : Prop :=
  (s.shape.Covers cell ∨ cell ∈ (subs.rules.get role).map Rule.column) ∧
    (cell.row = .next → role = .transition ∧ s.shape.Covers cell)

/-- How a lowered system extends the system that it comes from. -/
structure Widens (s : ConstraintSystem) (subs : Substitutions) (s' : ConstraintSystem) : Prop where
  shape_eq : (s'.combine subs).shape =
    ⟨s.shape.mainColumns + subs.mainCount, s.shape.auxColumns + subs.auxCount, s.shape.challenges⟩
  main_columns : (Role.all.flatMap subs.mainRules).map Rule.column =
    (List.range subs.mainCount).map fun i : Nat => ⟨.current, .main, s.shape.mainColumns + i⟩
  aux_columns : (Role.all.flatMap subs.auxRules).map Rule.column =
    (List.range subs.auxCount).map fun i : Nat => ⟨.current, .aux, s.shape.auxColumns + i⟩
  main_rule : ∀ role, ∀ rule ∈ subs.mainRules role, ∃ c,
    s'.arena.circuit? rule.expression = some c ∧ c.isBase = true ∧
    ∀ cell ∈ c.expr.cells, cell.table = .main ∧ cell.column < rule.column.column
  aux_rule : ∀ role, ∀ rule ∈ subs.auxRules role, ∃ c, s'.arena.circuit? rule.expression = some c ∧
    ∀ cell ∈ c.expr.cells, (cell.table = .aux → cell.column < rule.column.column) ∧
      (cell.table = .main → (s'.combine subs).shape.Covers cell)
  /-- The lowered constraints of a bucket and the constraints of its rules. -/
  constraint_cells : ∀ role, ∀ cell ∈ (s'.combine subs).cells role, s.MayRead subs role cell
  expression_cells : ∀ role, ∀ rule ∈ subs.rules.get role, ∀ c,
    s'.arena.circuit? rule.expression = some c → ∀ cell ∈ c.expr.cells, s.MayRead subs role cell
  isBase_eq : ∀ role, List.Forall₂ (fun x x' : Handle => ∃ c d, s.arena.circuit? x.id = some c ∧
    s'.arena.circuit? x'.id = some d ∧ d.isBase = c.isBase) (s.buckets.get role)
      (s'.buckets.get role)
  validate : (s'.combine subs).validate = .ok ()
  /-- A negative number of auxiliary columns leaves no place for new ones. -/
  inShape_iff : (s'.combine subs).InShape ↔ 0 ≤ s.shape.auxColumns ∨ subs.auxCount = 0

namespace Stage

variable (h : Stage s limits₀ Role.all s' limits subs)
  (hcolumns : ∀ table, limits₀.columns table = s.shape.columns table) (hs : s.InShape)

include hcolumns hs in
theorem admits {x : Leaf} (hx : ∃ role, Occurs (s.circuits role) x) : limits₀.Admits x := by
  obtain ⟨role, hx⟩ := hx
  cases x with
  | constant _ => trivial
  | input cell =>
    obtain ⟨h₀, hlt⟩ := hs role cell (mem_cells_iff.2 hx)
    exact ⟨h₀, by rw [hcolumns]; exact hlt⟩
  | challenge _ => trivial

include h hcolumns in
theorem column_lt_combine {rule : Rule} (hr : rule ∈ subs.rules.get role) :
    rule.column.column < (s'.combine subs).shape.columns rule.column.table := by
  rw [columns_combine, h.shape_eq, ← hcolumns]
  exact (h.column_bounds hr).2.2

include h in
theorem covers_combine (hc : s.shape.Covers cell) : (s'.combine subs).shape.Covers cell := by
  refine ⟨hc.1, ?_⟩
  have := hc.2
  rw [columns_combine, h.shape_eq]
  omega

include h hcolumns hs in
theorem covers_main {rule : Rule} (hr : rule ∈ subs.rules.get role)
    (ht : rule.column.table = .main) : (s'.combine subs).shape.Covers rule.column := by
  have hpos := h.derived.mainColumns_pos (fun x => admits hcolumns hs) (LowersTo.mem_all subs hr) ht
  have hle := (h.column_bounds hr).2.1
  rw [ht, Limits.columns] at hle
  exact ⟨by omega, column_lt_combine h hcolumns hr⟩

include h hs in
theorem mayRead (hv : s.validate = .ok ())
    (hc : cell ∈ s.cells role ∨ cell ∈ (subs.rules.get role).map Rule.column) :
    s.MayRead subs role cell := by
  rcases hc with hc | hc
  · exact ⟨.inl (hs role cell hc), fun hrow => ⟨row_of_validate hv hc hrow, hs role cell hc⟩⟩
  · refine ⟨.inr hc, fun hrow => ?_⟩
    rw [h.row_of_mem_columns hc] at hrow
    cases hrow

include h hcolumns hs in
theorem main_rule {rule : Rule} (hr : rule ∈ subs.mainRules role) :
    ∃ c, s'.arena.circuit? rule.expression = some c ∧
      c.isBase = true ∧ ∀ cell ∈ c.expr.cells, cell.table = .main ∧
        cell.column < rule.column.column := by
  obtain ⟨hr, hmain⟩ := List.mem_filter.1 hr
  have ht : rule.column.table = .main := by simpa [Rule.isMain] using hmain
  obtain ⟨e, he, htable, -⟩ := h.exists_defines hr
  have hbase : e.isBase = true := Expr.isBase_of_table (by rw [← htable, ht])
  obtain ⟨c, hc, rfl⟩ := he.expression.exists_circuit
  refine ⟨c, hc, by rw [c.isBase_eq, hbase], fun cell hcell => ?_⟩
  obtain ⟨d, hd, heq⟩ := Expr.exists_main_of_isBase hbase (Expr.mem_cells.1 hcell)
  cases heq
  exact ⟨hd,
    h.derived.column_lt (fun x => admits hcolumns hs) (LowersTo.mem_all subs hr) he
      hcell (hd.trans ht.symm)⟩

include h hcolumns hs in
theorem aux_rule {rule : Rule} (hr : rule ∈ subs.auxRules role) :
    ∃ c, s'.arena.circuit? rule.expression = some c ∧
      ∀ cell ∈ c.expr.cells, (cell.table = .aux → cell.column < rule.column.column) ∧
        (cell.table = .main → (s'.combine subs).shape.Covers cell) := by
  obtain ⟨hr, haux⟩ := List.mem_filter.1 hr
  have ht : rule.column.table = .aux := by
    cases htable : rule.column.table <;> simp_all [Rule.isMain]
  obtain ⟨e, he, -, hk⟩ := h.exists_defines hr
  obtain ⟨c, hc, rfl⟩ := he.expression.exists_circuit
  refine ⟨c, hc, fun cell hcell => ⟨fun htable => ?_, fun htable => ?_⟩⟩
  · exact h.derived.column_lt (fun x => admits hcolumns hs) (LowersTo.mem_all subs hr) he hcell
      (htable.trans ht.symm)
  · rcases known_cell (hk _ (Expr.mem_cells.1 hcell)) with hm | hm
    · exact covers_combine h (hs role cell hm)
    · obtain ⟨other, hother, rfl⟩ := List.mem_map.1 hm
      exact covers_main h hcolumns hs hother htable

include h in
theorem column_mem_cells {rule : Rule} (hr : rule ∈ subs.rules.get role) :
    rule.column ∈ (s'.combine subs).cells role := by
  obtain ⟨e, he, -⟩ := h.exists_defines hr
  obtain ⟨z, hz, hvars, -⟩ := he.constraint
  obtain ⟨c, hc, rfl⟩ := hz.exists_circuit
  exact mem_cells_of_handle (mem_combine.2 (.inr ⟨rule, hr, rfl⟩)) hc
    (Expr.mem_cells.2 ((hvars _).2 (.inl rfl)))

include h hcolumns hs in
theorem inShape_combine (haux : 0 ≤ s.shape.auxColumns ∨ subs.auxCount = 0) :
    (s'.combine subs).InShape := by
  intro role cell hc
  rcases h.cells_combine hc with hm | hm
  · exact covers_combine h (hs role cell hm)
  · obtain ⟨rule, hr, rfl⟩ := List.mem_map.1 hm
    cases ht : rule.column.table with
    | main => exact covers_main h hcolumns hs hr ht
    | aux =>
      -- unlike a new main column, whose expression reads a main column, a new auxiliary one may be
      -- the first of its table
      refine ⟨?_, column_lt_combine h hcolumns hr⟩
      rcases haux with haux | hnone
      · have hle := (h.column_bounds hr).2.1
        rw [hcolumns, ht, Shape.columns] at hle
        omega
      · rw [Substitutions.auxCount_eq, List.countP_eq_zero] at hnone
        simpa [ht] using hnone rule (LowersTo.mem_all subs hr)

include h hcolumns in
/-- The first new auxiliary column has the number of auxiliary columns as its index. -/
theorem auxColumns_of_inShape (hin : (s'.combine subs).InShape) :
    0 ≤ s.shape.auxColumns ∨ subs.auxCount = 0 := by
  rw [or_iff_not_imp_right]
  intro hne
  have hfirst : (⟨.current, .aux, s.shape.auxColumns + (0 : Nat)⟩ : Cell) ∈
      ((Role.all.flatMap subs.rules.get).filter fun rule => rule.column.table = .aux).map
        Rule.column := by
    rw [h.derived.columns_eq .aux, ← Substitutions.auxCount_eq, hcolumns]
    exact List.mem_map.2 ⟨0, List.mem_range.2 (Nat.pos_of_ne_zero hne), rfl⟩
  obtain ⟨rule, hrule, hcolumn⟩ := List.mem_map.1 hfirst
  obtain ⟨role, -, hr⟩ := List.mem_flatMap.1 (List.mem_filter.1 hrule).1
  have hcovers := (hin role rule.column (h.column_mem_cells hr)).1
  rw [hcolumn] at hcovers
  simpa using hcovers

include h hcolumns hs in
theorem widens (hv : s.validate = .ok ()) : s.Widens subs s' where
  shape_eq := by rw [← h.shape_eq]; rfl
  main_columns := by
    rw [Substitutions.filter_main, h.derived.columns_eq .main,
      ← Substitutions.mainCount_eq, hcolumns]
    rfl
  aux_columns := by
    rw [Substitutions.filter_aux, h.derived.columns_eq .aux, ← Substitutions.auxCount_eq, hcolumns]
    rfl
  main_rule _ _ hr := main_rule h hcolumns hs hr
  aux_rule _ _ hr := aux_rule h hcolumns hs hr
  constraint_cells _ _ hc := mayRead h hs hv (h.cells_combine hc)
  expression_cells role rule hr c hc cell hcell := by
    obtain ⟨e, he, -, hk⟩ := h.exists_defines hr
    rw [he.expression.expr_eq hc] at hcell
    exact mayRead h hs hv (known_cell (hk _ (Expr.mem_cells.1 hcell)))
  isBase_eq role := by
    refine (h.bucket role role.mem_all).2.imp ?_
    rintro x x' ⟨c, d, hc, hd, hcd⟩
    exact ⟨c, d, hc, hd, by rw [d.isBase_eq, c.isBase_eq, hcd.isBase_eq]⟩
  validate := h.validate_combine hv
  inShape_iff := ⟨auxColumns_of_inShape h hcolumns, inShape_combine h hcolumns hs⟩

end Stage

/-- Lowering succeeds where the system is valid, and widens it. -/
theorem lower_widens {s : ConstraintSystem} (hv : s.validate = .ok ()) (hs : s.InShape)
    {target : Int} (ht : 2 ≤ target) :
    ∃ subs s', lower target s = .ok subs s' ∧ s.Widens subs s' := by
  obtain ⟨subs, s', limits, hrun, hstage⟩ :=
    exists_lower_of_validate hv (by rw [Limits.check, dif_pos ht])
  exact ⟨subs, s', hrun, hstage.widens (fun table => by cases table <;> rfl) hs hv⟩

theorem lower_widens_cubes : cubes.validate = .ok () ∧ cubes.InShape ∧
    ∃ subs s', lower 2 cubes = .ok subs s' ∧
    subs.mainCount = 1 ∧ subs.auxCount = 1 ∧ cubes.Widens subs s' := by
  have hv : cubes.validate = .ok () := by decide +kernel
  have hs : cubes.InShape := fun role => by cases role <;> decide +kernel
  obtain ⟨subs, s', hlower, hcounts⟩ : ∃ subs s', lower 2 cubes = .ok subs s' ∧ subs.mainCount = 1 ∧
      subs.auxCount = 1 :=
    exists_ok (by decide +kernel)
  obtain ⟨_, _, hlower', hw⟩ := lower_widens hv hs (show (2 : Int) ≤ 2 by decide)
  rw [hlower] at hlower'
  cases hlower'
  exact ⟨hv, hs, subs, s', hlower, hcounts.1, hcounts.2, hw⟩

/-- From a negative number of auxiliary columns the first new one is numbered -1, where no table has
a column. -/
theorem not_inShape_negativeAux : negativeAux.validate = .ok () ∧ negativeAux.InShape ∧
    ∃ subs s', lower 2 negativeAux = .ok subs s' ∧ ¬ (s'.combine subs).InShape := by
  refine ⟨by decide +kernel, fun role => by cases role <;> decide +kernel, ?_⟩
  obtain ⟨subs, s', hlower, cell, hcell, hout⟩ : ∃ subs s', lower 2 negativeAux = .ok subs s' ∧
      ∃ cell ∈ (s'.combine subs).cells .consistency, ¬ (s'.combine subs).shape.Covers cell :=
    exists_ok (by decide +kernel)
  exact ⟨subs, s', hlower, fun hin => hout (hin .consistency cell hcell)⟩

end ConstraintSystem

end AirCompiler
