import AirCompiler.Proofs.System.Columns

/-!
# Filling depends on the given columns only

Two runs of the same steps, on tables that agree wherever a step reads, read the same, so they write
the same or fail alike (`Alike.step`). In a lowered system a step reads given columns, and in its
own row columns that were filled before it (`ConstraintSystem.Stage.reads`). So what derived columns
held before does not matter, in the last row of transition columns or elsewhere
(`DerivedColumns.fill_determined`).

A column may be counted from the end of a row, and two columns may then have the same place
(`position?`). That happens for tables that are announced with a negative number of columns.
-/

namespace AirCompiler

/-! ## Places -/

theorem position?_eq_some {length : Nat} {i : Int} {k : Nat} (h : position? length i = some k) :
    k < length := by
  unfold position? at h
  simp only [Option.ite_none_right_eq_some, Option.some.injEq] at h
  omega

namespace Tables

variable {t t' : Tables} {height : Nat} {width : Table → Int} {table other : Table} {row : Nat}
  {column c : Int} {place : Nat}

/-- The number of entries of a row. -/
def rowSize (t : Tables) (table : Table) (row : Nat) : Nat := ((t.rows table).getD row #[]).size

theorem cell?_eq (t : Tables) (table : Table) (row : Nat) (column : Int) :
    t.cell? table row column =
      (position? (t.rowSize table row) column).bind (((t.rows table).getD row #[])[·]?) := rfl

theorem Sized.rowSize_eq (h : t.Sized height width) (h' : t'.Sized height width)
    (table : Table) (row : Nat) : t.rowSize table row = t'.rowSize table row := by
  unfold rowSize
  by_cases hrow : row < height
  · have := h.width table row hrow
    have := h'.width table row hrow
    omega
  · rw [Array.getD_eq_getD_getElem?, Array.getElem?_eq_none (by rw [h.size]; omega),
      Array.getD_eq_getD_getElem?, Array.getElem?_eq_none (by rw [h'.size]; omega)]

theorem lt_size_of_position? (h : position? (t.rowSize table row) column = some place) :
    row < (t.rows table).size := by
  by_contra hrow
  have hlt := position?_eq_some h
  rw [rowSize, Array.getD_eq_getD_getElem?, Array.getElem?_eq_none (Nat.le_of_not_lt hrow)] at hlt
  exact absurd hlt (Nat.not_lt_zero place)

/-- A cell after the entry at some place was replaced: columns with the same place share their
cell. -/
theorem cell?_set_place (h : position? (t.rowSize table row) column = some place) (x : Scalar)
    (other : Table) (i : Nat) (c : Int) :
    (t.set table row place x).cell? other i c =
      if other = table ∧ i = row ∧ position? (t.rowSize table row) c = some place then some x
        else t.cell? other i c := by
  have hlt := position?_eq_some h
  rw [cell?, getD_rows_set (lt_size_of_position? h), cell?_eq]
  by_cases hti : other = table ∧ i = row
  · obtain ⟨rfl, rfl⟩ := hti
    rw [if_pos ⟨rfl, rfl⟩, itemAt?, Array.size_setIfInBounds]
    simp only [true_and, rowSize] at hlt ⊢
    cases hc : position? ((t.rows other).getD i #[]).size c with
    | none => rfl
    | some k =>
      rw [Option.bind_some, Option.bind_some, Array.getElem?_setIfInBounds, Int.toNat_natCast]
      by_cases hk : place = k
      · rw [if_pos hk, if_pos hlt, if_pos (congrArg some hk.symm)]
      · rw [if_neg hk, if_neg fun heq => hk (Option.some.inj heq).symm]
  · rw [if_neg hti, if_neg fun heq => hti ⟨heq.1, heq.2.1⟩]
    rfl

/-- There is no cell beyond the last row or column. -/
theorem Sized.cell?_eq_none (h : t.Sized height width) (h₀ : 0 ≤ column)
    (hout : ¬ (row < height ∧ column < width table)) : t.cell? table row column = none := by
  rw [cell?, itemAt?_of_nonneg _ h₀, Array.getElem?_eq_none]
  by_cases hrow : row < height
  · have hwidth := h.width table row hrow
    omega
  · rw [Array.getD_eq_getD_getElem?, Array.getElem?_eq_none (by rw [h.size]; omega)]
    exact Nat.zero_le _

theorem mainIsBase_of_forall (h : ∀ entries ∈ t.main, ∀ x ∈ entries, x.isBase = true) :
    t.MainIsBase := by
  intro row column x h₀ hx
  obtain ⟨entries, hentries, hx⟩ := mem_rows_iff.2 ⟨row, column, h₀, hx⟩
  exact h entries hentries x hx

/-- Tables of one size are equal if their cells are. -/
theorem Sized.ext (h : t.Sized height width) (h' : t'.Sized height width)
    (hcell : ∀ table row column, 0 ≤ column →
      t.cell? table row column = t'.cell? table row column) : t = t' := by
  have hrows : ∀ table, t.rows table = t'.rows table := by
    intro table
    refine Array.ext ((h.size table).trans (h'.size table).symm) fun i hi hi' =>
      Array.ext_getElem? fun k => ?_
    have := hcell table i k (Int.natCast_nonneg k)
    rw [cell?, cell?, itemAt?_of_nonneg _ (Int.natCast_nonneg k),
      itemAt?_of_nonneg _ (Int.natCast_nonneg k)] at this
    simpa [hi, hi'] using this
  have hmain : t.main = t'.main := hrows .main
  have haux : t.aux = t'.aux := hrows .aux
  cases t
  cases t'
  exact congrArg₂ Tables.mk hmain haux

end Tables

/-! ## Steps -/

namespace DerivedColumns

/-- Rules of main columns do not see more than main rows. -/
theorem mainValue_congr {rule : FillRule} {t t' : Tables} {row : Nat}
    (h : ∀ x ∈ rule.expr.vars, x.eval (t.window #[] rule.role row) =
      x.eval (t'.window #[] rule.role row)) :
    mainValue rule t.main row = mainValue rule t'.main row := by
  have heval : rule.expr.eval { Rows.empty with
      currentMain := t.main.getD row #[]
      nextMain := following rule.role t.main row } ∅ = rule.expr.eval { Rows.empty with
      currentMain := t'.main.getD row #[]
      nextMain := following rule.role t'.main row } ∅ := by
    refine Expr.eval_congr fun x hx => ?_
    have hx := h x hx
    cases x with
    | constant s => rfl
    | input c =>
      obtain ⟨crow, table, column⟩ := c
      cases table with
      | main => cases crow <;> exact hx
      | aux => cases crow <;> rfl
    | challenge i => rfl
  simp only [mainValue, heval]

theorem auxValue_congr {rule : FillRule} {challenges : Array Scalar} {t t' : Tables} {row : Nat}
    (h : ∀ x ∈ rule.expr.vars, x.eval (t.window challenges rule.role row) =
      x.eval (t'.window challenges rule.role row)) :
    auxValue rule challenges t row = auxValue rule challenges t' row := by
  unfold auxValue
  show ((rule.expr.eval (t.window challenges rule.role row) ∅).mapError FillError.eval >>= _) =
    ((rule.expr.eval (t'.window challenges rule.role row) ∅).mapError FillError.eval >>= _)
  rw [Expr.eval_congr h]

end DerivedColumns

namespace FillStep

variable {challenges : Array Scalar} {t t' : Tables} {q : FillStep}

/-- What a step writes. -/
def value (challenges : Array Scalar) (q : FillStep) (t : Tables) : Except FillError Scalar :=
  match q.table with
  | .main => DerivedColumns.mainValue q.rule t.main q.row
  | .aux => DerivedColumns.auxValue q.rule challenges t q.row

/-- A step writes its value at the place of its column, and fails where there is no value or no
place. -/
theorem run_eq (challenges : Array Scalar) (q : FillStep) (t : Tables) :
    q.run challenges t = match q.value challenges t with
      | .error e => .error e t
      | .ok x => match position? (t.rowSize q.table q.row) q.rule.column with
        | none => .error (.eval .outOfRange) t
        | some place => .ok () (t.set q.table q.row place x) := by
  obtain ⟨table, rule, row⟩ := q
  cases table with
  | main =>
    simp only [run, DerivedColumns.fillMainCell, value, bind, Except.bind]
    cases DerivedColumns.mainValue rule t.main row with
    | error e => rfl
    | ok x =>
      simp only [DerivedColumns.setCell, Tables.rowSize, Tables.rows]
      cases position? (t.main.getD row #[]).size rule.column <;> rfl
  | aux =>
    simp only [run, DerivedColumns.fillAuxCell, value, bind, Except.bind]
    cases DerivedColumns.auxValue rule challenges t row with
    | error e => rfl
    | ok x =>
      simp only [DerivedColumns.setCell, Tables.rowSize, Tables.rows]
      cases position? (t.aux.getD row #[]).size rule.column <;> rfl

/-- A step that succeeds replaces the entry at the place of its column. -/
theorem exists_of_run_eq_ok (h : q.run challenges t = .ok () t') :
    ∃ x place, position? (t.rowSize q.table q.row) q.rule.column = some place ∧
      t' = t.set q.table q.row place x := by
  rw [run_eq] at h
  split at h
  · cases h
  · rename_i x _
    split at h
    · cases h
    · rename_i place hplace
      cases h
      exact ⟨x, place, hplace, rfl⟩

/-- The step writes the cell of the column. -/
def Writes (q : FillStep) (table : Table) (row : Nat) (column : Int) : Prop :=
  q.table = table ∧ q.row = row ∧ q.rule.column = column

/-- The expression reads given columns, and in its own row columns that are already written. -/
def Reads (given : Table → Int → Prop) (done : List FillStep) (q : FillStep) : Prop :=
  ∀ c : Cell, .input c ∈ q.rule.expr.vars →
    given c.table c.column ∨ (c.row = .current ∧ ∃ p ∈ done, p.Writes c.table q.row c.column)

end FillStep

/-! ## Runs -/

section Frame

variable {challenges : Array Scalar} {height : Nat} {width : Table → Int} {t t' : Tables}

theorem Tables.Sized.step (h : t.Sized height width) {q : FillStep}
    (hrun : q.run challenges t = .ok () t') :
    t'.Sized height width := by
  obtain ⟨x, place, hplace, rfl⟩ := FillStep.exists_of_run_eq_ok hrun
  exact h.set (by rw [← h.size]; exact lt_size_of_position? hplace)

/-- What steps leave alone: the cells of places that none of them writes. -/
theorem Tables.Sized.run (h : t.Sized height width) {steps : List FillStep}
    (hrun : steps.forM (FillStep.run challenges) t = .ok () t') :
    t'.Sized height width ∧ ∀ table row column,
      (∀ p ∈ steps, p.table = table → p.row = row →
        position? (t.rowSize table row) p.rule.column ≠ position? (t.rowSize table row) column) →
      t'.cell? table row column = t.cell? table row column := by
  induction steps generalizing t with
  | nil =>
    cases hrun
    exact ⟨h, fun _ _ _ _ => rfl⟩
  | cons q steps ih =>
    change (q.run challenges >>= fun _ => steps.forM (FillStep.run challenges)) t = _ at hrun
    obtain ⟨_, t₁, hq, hrest⟩ := exists_of_run_bind_eq_ok hrun
    have h₁ := h.step hq
    obtain ⟨h', hkept⟩ := ih h₁ hrest
    refine ⟨h', fun table row column hp => ?_⟩
    rw [hkept table row column fun p hm => by
      rw [h₁.rowSize_eq h]; exact hp p (List.mem_cons_of_mem q hm)]
    obtain ⟨x, place, hplace, rfl⟩ := FillStep.exists_of_run_eq_ok hq
    rw [cell?_set_place hplace, if_neg]
    rintro ⟨rfl, rfl, hc⟩
    exact hp q List.mem_cons_self rfl rfl (hplace.trans hc.symm)

end Frame

/-- Both runs fail for the same reason, or both succeed with related tables. -/
inductive SameOutcome (R : Tables → Tables → Prop) : EStateM.Result FillError Tables Unit →
    EStateM.Result FillError Tables Unit → Prop
  | error (e : FillError) (t t' : Tables) : SameOutcome R (.error e t) (.error e t')
  | ok {t t' : Tables} (h : R t t') : SameOutcome R (.ok () t) (.ok () t')

theorem SameOutcome.imp {R S : Tables → Tables → Prop} {r r' : EStateM.Result FillError Tables Unit}
    (h : SameOutcome R r r') (hrs : ∀ t t', r = .ok () t → r' = .ok () t' → R t t' → S t t') :
    SameOutcome S r r' := by
  cases h with
  | error e t t' => exact .error e t t'
  | ok hr => exact .ok (hrs _ _ rfl rfl hr)

theorem SameOutcome.exists_ok {R : Tables → Tables → Prop} {t : Tables}
    {r : EStateM.Result FillError Tables Unit} (h : SameOutcome R (.ok () t) r) :
    ∃ t', r = .ok () t' ∧ R t t' := by
  cases h with
  | ok hr => exact ⟨_, rfl, hr⟩

theorem SameOutcome.bind {R S : Tables → Tables → Prop} {f g : Fill Unit} {t t' : Tables}
    (h : SameOutcome R (f t) (f t')) (hg : ∀ u u', R u u' → SameOutcome S (g u) (g u')) :
    SameOutcome S ((f >>= fun _ => g) t) ((f >>= fun _ => g) t') := by
  show SameOutcome S (EStateM.bind f (fun _ => g) t) (EStateM.bind f (fun _ => g) t')
  unfold EStateM.bind
  generalize f t = r at h
  generalize f t' = r' at h
  cases h with
  | error e u u' => exact .error e u u'
  | ok hr => exact hg _ _ hr

/-- Tables of one size that agree in given columns and in the cells that were written. -/
structure Alike (given : Table → Int → Prop) (height : Nat) (width : Table → Int)
    (done : List FillStep) (t t' : Tables) : Prop where
  left : t.Sized height width
  right : t'.Sized height width
  given_eq : ∀ table row column, given table column →
    t.cell? table row column = t'.cell? table row column
  written_eq : ∀ table row column, (∃ p ∈ done, p.Writes table row column) →
    t.cell? table row column = t'.cell? table row column

namespace Alike

variable {given : Table → Int → Prop} {challenges : Array Scalar} {height : Nat}
  {width : Table → Int} {done : List FillStep} {t t' : Tables} {q : FillStep}

/-- A step that reads where the tables agree writes the same into both. -/
theorem value_eq (h : Alike given height width done t t') (hq : q.Reads given done)
    (challenges : Array Scalar) : q.value challenges t = q.value challenges t' := by
  have hwindow : ∀ challenges, ∀ x ∈ q.rule.expr.vars,
      x.eval (t.window challenges q.rule.role q.row) =
        x.eval (t'.window challenges q.rule.role q.row) := by
    intro challenges x hx
    cases x with
    | constant s => rfl
    | input c =>
      rw [Leaf.eval, Leaf.eval, Tables.itemAt?_window, Tables.itemAt?_window]
      rcases hq c hx with hgiven | ⟨hrow, hwritten⟩
      · simp only [h.given_eq _ _ _ hgiven]
      · simp only [hrow, h.written_eq _ _ _ hwritten]
    | challenge i => rfl
  cases ht : q.table with
  | main =>
    simp only [FillStep.value, ht]
    exact DerivedColumns.mainValue_congr (hwindow #[])
  | aux =>
    simp only [FillStep.value, ht]
    exact DerivedColumns.auxValue_congr (hwindow challenges)

theorem set (h : Alike given height width done t t') {place : Nat}
    (hplace : position? (t.rowSize q.table q.row) q.rule.column = some place) (x : Scalar) :
    Alike given height width (done ++ [q]) (t.set q.table q.row place x)
      (t'.set q.table q.row place x) := by
  have hplace' : position? (t'.rowSize q.table q.row) q.rule.column = some place := by
    rwa [h.right.rowSize_eq h.left]
  have hrow : q.row < height := by rw [← h.left.size]; exact Tables.lt_size_of_position? hplace
  have hcell : ∀ table row column, t.cell? table row column = t'.cell? table row column →
      (t.set q.table q.row place x).cell? table row column =
        (t'.set q.table q.row place x).cell? table row column := by
    intro table row column heq
    rw [Tables.cell?_set_place hplace, Tables.cell?_set_place hplace', heq,
      h.right.rowSize_eq h.left]
  refine ⟨h.left.set hrow, h.right.set hrow,
    fun table row column hg => hcell _ _ _ (h.given_eq table row column hg), ?_⟩
  rintro table row column ⟨p, hp, hw⟩
  rcases List.mem_append.1 hp with hp | hp
  · exact hcell _ _ _ (h.written_eq table row column ⟨p, hp, hw⟩)
  · obtain rfl := List.mem_singleton.1 hp
    obtain ⟨rfl, rfl, rfl⟩ := hw
    rw [Tables.cell?_set_place hplace, Tables.cell?_set_place hplace', if_pos ⟨rfl, rfl, hplace⟩,
      if_pos ⟨rfl, rfl, hplace'⟩]

theorem step (h : Alike given height width done t t') (hq : q.Reads given done)
    (challenges : Array Scalar) :
    SameOutcome (Alike given height width (done ++ [q])) (q.run challenges t)
      (q.run challenges t') := by
  rw [FillStep.run_eq, FillStep.run_eq, ← h.value_eq hq challenges, ← h.left.rowSize_eq h.right]
  cases q.value challenges t with
  | error e => exact .error e t t'
  | ok x =>
    cases hplace : position? (t.rowSize q.table q.row) q.rule.column with
    | none => exact .error _ t t'
    | some place => exact .ok (h.set hplace x)

/-- Steps that read what is given or what those before them wrote end alike. -/
theorem run (h : Alike given height width done t t') (challenges : Array Scalar)
    (steps : List FillStep)
    (hsteps : ∀ before q after, steps = before ++ q :: after → q.Reads given (done ++ before)) :
    SameOutcome (Alike given height width (done ++ steps)) (steps.forM (FillStep.run challenges) t)
      (steps.forM (FillStep.run challenges) t') := by
  induction steps generalizing done t t' with
  | nil => exact .ok (by rwa [List.append_nil])
  | cons q steps ih =>
    have hq : q.Reads given done := by simpa using hsteps [] q steps rfl
    show SameOutcome _ ((q.run challenges >>= fun _ => steps.forM (FillStep.run challenges)) t)
      ((q.run challenges >>= fun _ => steps.forM (FillStep.run challenges)) t')
    refine (h.step hq challenges).bind fun u u' hu => ?_
    rw [List.append_cons]
    refine ih hu fun before r after heq => ?_
    rw [← List.append_cons]
    exact hsteps (q :: before) r after (by rw [heq]; rfl)

end Alike

/-! ## Steps of a lowered system -/

namespace DerivedColumns

/-- The number of columns of a table, derived ones included. -/
def columns (d : DerivedColumns) : Table → Int
  | .main => d.mainColumns
  | .aux => d.auxColumns

/-- Fills both tables, the main table first. -/
def fill (d : DerivedColumns) (challenges : Array Scalar) : Fill Unit := do
  d.fillMain
  d.fillAux challenges

/-- Filling both tables takes the steps of both, whether or not they succeed. -/
theorem fill_eq {d : DerivedColumns} {t : Tables} {height : Nat} {width : Table → Int}
    (ht : t.Sized height width) (hwidth : ∀ table, d.columns table = width table)
    (challenges : Array Scalar) :
    d.fill challenges t = (d.allSteps height).forM (FillStep.run challenges) t := by
  have hsplit : (d.allSteps height).forM (FillStep.run challenges) t =
      ((steps .main height d.mainRules).forM (FillStep.run challenges) >>= fun _ =>
        (steps .aux height d.auxRules).forM (FillStep.run challenges)) t :=
          congrFun List.forM_append t
  have hfirst := fillMain_eq ht (hwidth .main) challenges
  rw [fill, hsplit]
  cases hrun : (steps .main height d.mainRules).forM (FillStep.run challenges) t with
  | ok _ t₁ =>
    rw [Build.bind_of_ok (hfirst.trans hrun),
      fillAux_eq (ht.run hrun).1 (hwidth .main) (hwidth .aux), Build.bind_of_ok hrun]
  | error e t₁ => rw [Build.bind_of_error (hfirst.trans hrun), Build.bind_of_error hrun]

/-- The fill rules of a table have the columns of its rules, in their order. -/
theorem map_column_rules {a : Arena} {subs : Substitutions}
    (h : ∀ role, ∀ rule ∈ subs.rules.get role, ∃ e, rule.Defines a e) (shape : Shape)
    (table : Table) :
    ((ofSubstitutions a subs shape).rules table).map FillRule.column =
      ((Role.all.flatMap subs.rules.get).filter fun rule => rule.column.table = table).map
        fun rule => rule.column.column := by
  rw [rules_ofSubstitutions, ← Substitutions.map_tagged, List.filter_map,
    List.map_map, List.map_filterMap, ← List.filterMap_eq_map, List.filterMap_filter]
  refine List.filterMap_congr fun p hp => ?_
  obtain ⟨e, he⟩ := h p.1 p.2 (Substitutions.mem_tagged.1 hp)
  by_cases ht : p.2.column.table = table
  · simp [ht, fillRule?_of_defines he]
  · simp [ht]

/-- Steps in the order in which they are taken: main columns first, then by the number of the
column. -/
def Before (p q : FillStep) : Prop :=
  p.table = .main ∧ q.table = .aux ∨ p.table = q.table ∧ p.rule.column ≤ q.rule.column

theorem pairwise_before {d : DerivedColumns}
    (h : ∀ table, ((d.rules table).map FillRule.column).Pairwise (· < ·)) (height : Nat) :
    (d.allSteps height).Pairwise Before := by
  have hsteps : ∀ table, (steps table height (d.rules table)).Pairwise Before := by
    intro table
    refine List.pairwise_flatMap.2
      ⟨fun r _ => ?_, (List.pairwise_map.1 (h table)).imp fun {r r'} hlt p hp q hq => ?_⟩
    · exact List.pairwise_map.2 (List.pairwise_of_forall fun _ _ => .inr ⟨rfl, Int.le_refl _⟩)
    · obtain ⟨_, -, rfl⟩ := List.mem_map.1 hp
      obtain ⟨_, -, rfl⟩ := List.mem_map.1 hq
      exact .inr ⟨rfl, Int.le_of_lt hlt⟩
  refine List.pairwise_append.2 ⟨hsteps .main, hsteps .aux, fun p hp q hq => .inl ⟨?_, ?_⟩⟩
  · exact (mem_steps.1 hp).1
  · exact (mem_steps.1 hq).1

end DerivedColumns

/-- The steps that fill the columns of a lowered system. -/
abbrev ConstraintSystem.fillSteps (s : ConstraintSystem) (subs : Substitutions)
    (s' : ConstraintSystem) (height : Nat) :
    List FillStep := (DerivedColumns.ofSubstitutions s'.arena subs s.shape).allSteps height

namespace ConstraintSystem.Stage

variable {s s' : ConstraintSystem} {limits₀ limits : Limits} {subs : Substitutions}
  (h : Stage s limits₀ Role.all s' limits subs)
  (hcolumns : ∀ table, limits₀.columns table = s.shape.columns table)

include h in
theorem defined (role : Role) (rule : Rule) (hr : rule ∈ subs.rules.get role) :
    ∃ e, rule.Defines s'.arena e :=
  (h.exists_defines hr).imp fun _ he => he.1

include h hcolumns in
/-- The columns of a table's rules follow the given ones, one after another. -/
theorem column_rules (table : Table) :
    ((DerivedColumns.ofSubstitutions s'.arena subs s.shape).rules table).map FillRule.column =
      (List.range ((Role.all.flatMap subs.rules.get).countP
        fun rule => rule.column.table = table)).map
        fun i : Nat => s.shape.columns table + i := by
  have hcells := congrArg (List.map Cell.column) (h.derived.columns_eq table)
  rw [List.map_map, List.map_map, hcolumns] at hcells
  exact (DerivedColumns.map_column_rules h.defined s.shape table).trans hcells

include h hcolumns in
theorem pairwise_before (height : Nat) :
    (s.fillSteps subs s' height).Pairwise DerivedColumns.Before := by
  refine DerivedColumns.pairwise_before (fun table => ?_) height
  rw [h.column_rules hcolumns, List.pairwise_map]
  exact List.pairwise_lt_range.imp fun hij => by omega

include h in
/-- Some step fills the column of a rule in every row that the rule fills. -/
theorem exists_step {role : Role} {rule : Rule} (hr : rule ∈ subs.rules.get role) {height row : Nat}
    (hrow : row < DerivedColumns.filledRows role height) :
    ∃ p ∈ s.fillSteps subs s' height,
      p.Writes rule.column.table row rule.column.column := by
  obtain ⟨e, he⟩ := h.defined role rule hr
  exact ⟨⟨rule.column.table, ⟨rule.column.column, role, e⟩, row⟩,
    DerivedColumns.mem_allSteps.2 ⟨LowersTo.mem_rules hr he, hrow⟩, rfl, rfl, rfl⟩

include h hcolumns in
/-- A step reads given columns, and in its own row columns that were filled before. -/
theorem reads (hs : s.InShape) {height : Nat} {before after : List FillStep} {q : FillStep}
    (hsplit : s.fillSteps subs s' height = before ++ q :: after) :
    q.Reads s.shape.HasColumn before := by
  have hq : q ∈ s.fillSteps subs s' height := by simp [hsplit]
  obtain ⟨hqr, hrow⟩ := DerivedColumns.mem_allSteps.1 hq
  obtain ⟨rule, hr, htable, hcolumn, hdef⟩ := DerivedColumns.exists_of_mem_rules h.defined hqr
  obtain ⟨e, he, hetable, hk⟩ := h.exists_defines hr
  obtain rfl := hdef.unique he
  intro c hc
  rcases known_cell (hk _ hc) with hm | hm
  · exact .inl (hs _ c hm)
  obtain ⟨other, hother, rfl⟩ := List.mem_map.1 hm
  obtain ⟨p, hp, hw⟩ := h.exists_step hother hrow
  refine .inr ⟨(h.column_bounds hother).1, p, ?_, hw⟩
  -- no step from this one on fills a column that its expression reads
  have hpairwise := h.pairwise_before hcolumns height
  rw [hsplit] at hp hpairwise
  have hlater := (List.pairwise_cons.1 (List.pairwise_append.1 hpairwise).2.1).1
  refine (List.mem_append.1 hp).resolve_right fun hp => ?_
  have hbefore : DerivedColumns.Before q p := by
    rcases List.mem_cons.1 hp with rfl | hp
    · exact .inr ⟨rfl, Int.le_refl _⟩
    · exact hlater p hp
  rcases hbefore with ⟨hmain, haux⟩ | ⟨hsame, hle⟩
  · have hbase : q.rule.expr.isBase = true :=
      Expr.isBase_of_table (by rw [← hetable, htable, hmain])
    obtain ⟨d, hd, hcell⟩ := Expr.exists_main_of_isBase hbase hc
    cases hcell
    rw [← hw.1, haux] at hd
    cases hd
  · have hlt :=
      h.derived.column_lt (fun _ => admits hcolumns hs) (LowersTo.mem_all subs hr) hdef
        (Expr.mem_cells.2 hc)
      (by rw [htable, hsame, hw.1])
    rw [hw.2.2, ← hcolumn] at hle
    omega

include h in
/-- The rows are as wide as the derived columns ask for. -/
theorem columns_eq (table : Table) :
    (DerivedColumns.ofSubstitutions s'.arena subs s.shape).columns table =
      (s'.combine subs).shape.columns table := by
  have hlength := DerivedColumns.length_rules h.defined s.shape table
  rw [columns_combine, h.shape_eq, ← hlength]
  cases table <;> rfl

include h hcolumns in
/-- What the steps of a system write are new columns. -/
theorem column_of_mem_allSteps {height : Nat} {p : FillStep}
    (hp : p ∈ s.fillSteps subs s' height) :
    p.row < height ∧ s.shape.columns p.table ≤ p.rule.column ∧
      p.rule.column < (s'.combine subs).shape.columns p.table := by
  obtain ⟨hrule, hrow⟩ := DerivedColumns.mem_allSteps.1 hp
  obtain ⟨rule, hr, htable, hcolumn, -⟩ := DerivedColumns.exists_of_mem_rules h.defined hrule
  rw [← hcolumn, ← htable, ← hcolumns]
  exact ⟨Nat.lt_of_lt_of_le hrow (DerivedColumns.filledRows_le _ _), (h.column_bounds hr).2.1,
    h.column_lt_combine hcolumns hr⟩

section

variable {challenges : Array Scalar} {height : Nat} {t t' : Tables} {table : Table}
  {row : Nat} {column : Int}

include h hcolumns in
theorem cell?_eq_of_given (ht : t.Sized height (s'.combine subs).shape.columns)
    (hrun : (s.fillSteps subs s' height).forM (FillStep.run challenges) t = .ok () t')
    (hc : s.shape.HasColumn table column) :
    t'.cell? table row column = t.cell? table row column := by
  obtain ⟨h₀, hlt⟩ := hc
  refine (ht.run hrun).2 table row column fun p hp htable hrow => ?_
  obtain ⟨hheight, hle, hwidth⟩ := h.column_of_mem_allSteps hcolumns hp
  subst htable hrow
  have hsize : (t.rowSize p.table p.row : Int) = (s'.combine subs).shape.columns p.table :=
    ht.width p.table p.row hheight
  rw [position?_of_lt (by omega) (by omega), position?_of_lt h₀ (by omega),
    ne_eq, Option.some.injEq]
  omega

include h hcolumns in
/-- Tables that agree in given columns and in what all steps wrote agree but for the last row of
transition columns. -/
theorem cell?_eq_of_alike
    (ha : Alike s.shape.HasColumn height (s'.combine subs).shape.columns
      (s.fillSteps subs s' height) t t')
    (h₀ : 0 ≤ column)
    (hlast : row + 1 = height → ∀ rule ∈ subs.rules.get .transition,
      rule.column ≠ ⟨.current, table, column⟩) :
    t.cell? table row column = t'.cell? table row column := by
  by_cases hin : row < height ∧ column < (s'.combine subs).shape.columns table
  · obtain ⟨hrow, hwidth⟩ := hin
    by_cases hgiven : column < s.shape.columns table
    · exact ha.given_eq table row column ⟨h₀, hgiven⟩
    · -- behind the given columns there are none but those of the rules
      have hmem : column ∈ ((DerivedColumns.ofSubstitutions s'.arena subs s.shape).rules table).map
          FillRule.column := by
        rw [h.column_rules hcolumns]
        rw [columns_combine, h.shape_eq] at hwidth
        exact List.mem_map.2 ⟨(column - s.shape.columns table).toNat,
          List.mem_range.2 (by omega), by omega⟩
      obtain ⟨f, hf, rfl⟩ := List.mem_map.1 hmem
      obtain ⟨rule, hr, rfl, hcolumn, -⟩ := DerivedColumns.exists_of_mem_rules h.defined hf
      rw [← hcolumn] at hlast ⊢
      refine ha.written_eq _ _ _ (h.exists_step hr ?_)
      by_contra hfilled
      unfold DerivedColumns.filledRows at hfilled
      split at hfilled
      · rename_i hdual
        have hrole : f.role = .transition := by
          by_contra hne
          rw [isDualRow_eq_false.2 hne] at hdual
          cases hdual
        exact hlast (by omega) rule (hrole ▸ hr) (Cell.ext (h.column_bounds hr).1 rfl rfl)
      · exact hfilled hrow
  · rw [ha.left.cell?_eq_none h₀ hin, ha.right.cell?_eq_none h₀ hin]

include h hcolumns in
/-- Filling tables that agree in given columns ends alike. -/
theorem sameOutcome (hs : s.InShape) (ht : t.Sized height (s'.combine subs).shape.columns)
    (ht' : t'.Sized height (s'.combine subs).shape.columns)
    (hgiven : ∀ table row column, s.shape.HasColumn table column →
      t.cell? table row column = t'.cell? table row column)
    (challenges : Array Scalar) :
    SameOutcome (Alike s.shape.HasColumn height (s'.combine subs).shape.columns
        (s.fillSteps subs s' height))
      ((s.fillSteps subs s' height).forM (FillStep.run challenges) t)
      ((s.fillSteps subs s' height).forM (FillStep.run challenges) t') := by
  have hstart : Alike s.shape.HasColumn height (s'.combine subs).shape.columns [] t t' :=
    ⟨ht, ht', hgiven, by simp⟩
  exact hstart.run challenges _ fun before q after hsplit => h.reads hcolumns hs hsplit

include h hcolumns in
/-- Tables that were filled stay as they are when they are filled again. -/
theorem refill (hs : s.InShape) (ht : t.Sized height (s'.combine subs).shape.columns)
    (hrun : (s.fillSteps subs s' height).forM (FillStep.run challenges) t = .ok () t') :
    (s.fillSteps subs s' height).forM (FillStep.run challenges) t' = .ok () t' := by
  have ht' := (ht.run hrun).1
  have hsame :=
    h.sameOutcome hcolumns hs ht ht'
      (fun _ _ _ hc => (h.cell?_eq_of_given hcolumns ht hrun hc).symm) challenges
  rw [hrun] at hsame
  obtain ⟨t'', hrun', ha⟩ := hsame.exists_ok
  obtain ⟨ht'', hkept⟩ := ht'.run hrun'
  rw [hrun']
  refine congrArg (EStateM.Result.ok ()) (ht''.ext ht' fun table row column _ => ?_)
  by_cases hw : ∃ p ∈ s.fillSteps subs s' height, p.table = table ∧ p.row = row ∧
      position? (t'.rowSize table row) p.rule.column = position? (t'.rowSize table row) column
  · obtain ⟨p, hp, rfl, rfl, hplace⟩ := hw
    have heq := ha.written_eq p.table p.row p.rule.column ⟨p, hp, rfl, rfl, rfl⟩
    rw [Tables.cell?_eq, Tables.cell?_eq, ht''.rowSize_eq ht', ← hplace]
    rw [Tables.cell?_eq, Tables.cell?_eq, ht''.rowSize_eq ht'] at heq
    exact heq.symm
  · exact hkept table row column fun p hp htable hrow hplace => hw ⟨p, hp, htable, hrow, hplace⟩

end

end ConstraintSystem.Stage

/-! ## Filling and refilling -/

/-- Where the number of auxiliary columns is not negative and there are challenges enough, filling
succeeds. -/
theorem ConstraintSystem.LowersTo.exists_fill {s s' : ConstraintSystem} {limits₀ : Limits}
    {subs : Substitutions} (h : s.LowersTo limits₀ subs s') {challenges : Array Scalar}
    (hchallenges : s.shape.challenges ≤ challenges.size) {height : Nat} {t : Tables}
    (ht : t.Sized height (s'.combine subs).shape.columns) (hbase : t.MainIsBase) :
    ∃ t', (DerivedColumns.ofSubstitutions s'.arena subs s.shape).fill challenges t = .ok () t' := by
  obtain ⟨_, hs⟩ := h.stage
  obtain ⟨t', hrun, -⟩ :=
    DerivedColumns.fill_spec ht (hs.columns_eq .main) (hs.columns_eq .aux) hbase
      (fun _ hp => h.legal hchallenges hp) (h.pairwise_allSteps hchallenges height)
  exact ⟨t', hrun⟩

/-- What filling makes of tables depends on the given columns only. Tables that agree there are,
with the same challenges, both filled or fail both for the same reason. Filled, they agree but for
the last row of transition columns, and filling them again changes nothing. Filling does not fail
where the number of auxiliary columns is not negative, there are at least as many challenges as the
shape announces, and the main table has base elements. -/
theorem DerivedColumns.fill_determined {s s' : ConstraintSystem} {target : Int}
    {subs : Substitutions}
    (hwithin : ∀ role, ∀ c ∈ s.circuits role, ∀ x ∈ c.expr.vars, s.shape.Admits x)
    (hlower : ConstraintSystem.lower target s = .ok subs s') (challenges : Array Scalar)
    {height : Nat} {t₁ t₂ : Tables} (ht₁ : t₁.Sized height (s'.combine subs).shape.columns)
    (ht₂ : t₂.Sized height (s'.combine subs).shape.columns)
    (hgiven : ∀ table row column, s.shape.HasColumn table column →
      t₁.cell? table row column = t₂.cell? table row column) :
    let d := ofSubstitutions s'.arena subs s.shape
    SameOutcome (fun t₁' t₂' =>
        (∀ table row column, 0 ≤ column →
          (row + 1 = height → ∀ rule ∈ subs.rules.get .transition,
            rule.column ≠ ⟨.current, table, column⟩) →
          t₁'.cell? table row column = t₂'.cell? table row column) ∧
        d.fill challenges t₁' = .ok () t₁' ∧ d.fill challenges t₂' = .ok () t₂')
      (d.fill challenges t₁) (d.fill challenges t₂) ∧
    (0 ≤ s.shape.auxColumns → s.shape.challenges ≤ challenges.size → t₁.MainIsBase →
      ∃ t₁', d.fill challenges t₁ = .ok () t₁') := by
  intro d
  obtain ⟨hvalid, limits₀, limits, hmain₀, haux₀, hstage⟩ := ConstraintSystem.lower_spec hlower
  have hcolumns : ∀ table, limits₀.columns table = s.shape.columns table := fun table => by
    cases table <;> assumption
  have hs : s.InShape := by
    intro role cell hcell
    obtain ⟨c, hc, hx⟩ := ConstraintSystem.mem_cells_iff.1 hcell
    exact hwithin role c hc _ hx
  refine ⟨?_, fun haux hchallenges hbase => ?_⟩
  · have hsame := hstage.sameOutcome hcolumns hs ht₁ ht₂ hgiven challenges
    rw [fill_eq ht₁ hstage.columns_eq, fill_eq ht₂ hstage.columns_eq]
    refine hsame.imp fun t₁' t₂' hr₁ hr₂ ha =>
      ⟨fun _ _ _ h₀ hlast => hstage.cell?_eq_of_alike hcolumns ha h₀ hlast, ?_, ?_⟩
    · rw [fill_eq ha.left hstage.columns_eq]
      exact hstage.refill hcolumns hs ht₁ hr₁
    · rw [fill_eq ha.right hstage.columns_eq]
      exact hstage.refill hcolumns hs ht₂ hr₂
  · exact ConstraintSystem.LowersTo.exists_fill ⟨hvalid, hcolumns, ⟨limits, hstage⟩, hwithin, haux⟩
      hchallenges ht₁ hbase

/-- The rows of `Tables.cubes` with other entries in the derived columns. -/
def Tables.staleCubes : Tables :=
  ⟨#[#[.base 1, .base 1], #[.base .minusOne, .base .minusOne]],
    #[#[.ext ⟨1, 1, 0⟩], #[.ext ⟨0, 0, 1⟩]]⟩

theorem DerivedColumns.fill_determined_cubes :
    ∃ subs s', ConstraintSystem.lower 2 .cubes = .ok subs s' ∧
    let d := ofSubstitutions s'.arena subs ConstraintSystem.cubes.shape
    ∃ t₁ t₂, d.fill #[.ext ⟨7, 1, 0⟩] .cubes = .ok () t₁ ∧
      d.fill #[.ext ⟨7, 1, 0⟩] .staleCubes = .ok () t₂ ∧ (∀ table row column, 0 ≤ column →
        (row + 1 = 2 → ∀ rule ∈ subs.rules.get .transition,
          rule.column ≠ ⟨.current, table, column⟩) →
        t₁.cell? table row column = t₂.cell? table row column) ∧
      d.fill #[.ext ⟨7, 1, 0⟩] t₁ = .ok () t₁ ∧ d.fill #[.ext ⟨7, 1, 0⟩] t₂ = .ok () t₂ := by
  obtain ⟨subs, s', hlower, hshape⟩ : ∃ subs s', ConstraintSystem.lower 2 .cubes = .ok subs s' ∧
      (s'.combine subs).shape = ⟨2, 1, 1⟩ := exists_ok (by decide +kernel)
  have hwithin : ∀ role, ∀ c ∈ ConstraintSystem.cubes.circuits role, ∀ x ∈ c.expr.vars,
      ConstraintSystem.cubes.shape.Admits x := fun role => by cases role <;> decide +kernel
  have hchallenges : ConstraintSystem.cubes.shape.challenges ≤
    (#[.ext ⟨7, 1, 0⟩] : Array Scalar).size := by decide +kernel
  have ht₁ : Tables.cubes.Sized 2 (s'.combine subs).shape.columns := by
    refine Tables.sized_of_forall rfl fun table => ?_
    rw [hshape]
    cases table <;> decide
  have ht₂ : Tables.staleCubes.Sized 2 (s'.combine subs).shape.columns := by
    refine Tables.sized_of_forall rfl fun table => ?_
    rw [hshape]
    cases table <;> decide
  have hbase : Tables.cubes.MainIsBase := Tables.mainIsBase_of_forall (by decide)
  have hgiven : ∀ table row column, ConstraintSystem.cubes.shape.HasColumn table column →
      Tables.cubes.cell? table row column = Tables.staleCubes.cell? table row column := by
    rintro table row column ⟨h₀, hlt⟩
    cases table with
    | main =>
      obtain rfl : column = 0 := by
        have : column < 1 := hlt
        omega
      match row with
      | 0 => rfl
      | 1 => rfl
      | row + 2 => rfl
    | aux =>
      have : column < 0 := hlt
      omega
  obtain ⟨hsame, hok⟩ := fill_determined hwithin hlower #[.ext ⟨7, 1, 0⟩] ht₁ ht₂ hgiven
  obtain ⟨t₁, h₁⟩ := hok (by decide +kernel) hchallenges hbase
  rw [h₁] at hsame
  obtain ⟨t₂, h₂, hcells, hrefill⟩ := hsame.exists_ok
  exact ⟨subs, s', hlower, t₁, t₂, h₁, h₂, hcells, hrefill⟩

/-- With a negative number of auxiliary columns there may be nothing to compare: filling tables of
the announced widths fails. -/
theorem DerivedColumns.fill_outOfRange_negativeAux :
    let s := ConstraintSystem.negativeAux
    let t : Tables := ⟨#[#[]], #[#[]]⟩
    let challenges : Array Scalar := #[.ext ⟨1, 2, 3⟩]
    (∀ role, ∀ c ∈ s.circuits role, ∀ x ∈ c.expr.vars, s.shape.Admits x) ∧
      (challenges.size : Int) = s.shape.challenges ∧
      ∃ subs s', ConstraintSystem.lower 2 s = .ok subs s' ∧
        t.Sized 1 (s'.combine subs).shape.columns ∧ t.MainIsBase ∧
        ∃ u, (ofSubstitutions s'.arena subs s.shape).fill challenges t =
          .error (.eval .outOfRange) u := by
  intro s t challenges
  refine ⟨fun role => by cases role <;> decide +kernel, by decide +kernel, ?_⟩
  obtain ⟨subs, s', hlower, hshape, hfails⟩ : ∃ subs s', ConstraintSystem.lower 2 s = .ok subs s' ∧
      (s'.combine subs).shape = ⟨0, 0, 1⟩ ∧
      (match (ofSubstitutions s'.arena subs s.shape).fill challenges t with
        | .ok _ _ => false
        | .error e _ => decide (e = .eval .outOfRange)) = true := exists_ok (by decide +kernel)
  refine ⟨subs, s', hlower, ?_, Tables.mainIsBase_of_forall (by decide), ?_⟩
  · refine Tables.sized_of_forall rfl fun table => ?_
    rw [hshape]
    cases table <;> decide
  · split at hfails
    · cases hfails
    · rename_i e u hrun
      exact ⟨u, by rw [hrun, of_decide_eq_true hfails]⟩

end AirCompiler
