import AirCompiler.Evaluation.DerivedColumns
import AirCompiler.Proofs.Circuit.Growth
import AirCompiler.Proofs.Evaluation.System

/-!
# Filling tables cell by cell

Derived columns are filled in steps (`FillStep`), each of which evaluates an expression on a window
of rows and writes one cell. A step may follow others if it overwrites neither what they wrote nor
what they read (`FillStep.Precedes`); then every cell written so far still holds the value of its
expression in the tables as they are now (`Filled`).

* `Filled.step`: a step succeeds and keeps this.
* `Filled.run`: so does a sequence of steps, each of which may be followed by those after it.
-/

namespace AirCompiler

/-! ## Entries -/

namespace Tables

/-- The rows of a table. -/
def rows (t : Tables) : Table → Array (Array Scalar)
  | .main => t.main
  | .aux => t.aux

/-- The entry of a cell. -/
def cell? (t : Tables) (table : Table) (row : Nat) (column : Int) : Option Scalar :=
  itemAt? ((t.rows table).getD row #[]) column

/-- Replaces the entry of a cell. -/
def set (t : Tables) (table : Table) (row : Nat) (column : Int) (x : Scalar) : Tables :=
  match table with
  | .main =>
    { t with main := t.main.modify row fun entries => entries.setIfInBounds column.toNat x }
  | .aux => { t with aux := t.aux.modify row fun entries => entries.setIfInBounds column.toNat x }

/-- Both tables have the height, and the rows of each have its width. -/
structure Sized (t : Tables) (height : Nat) (width : Table → Int) : Prop where
  size : ∀ table, (t.rows table).size = height
  width : ∀ table row, row < height → (((t.rows table).getD row #[]).size : Int) = width table

/-- The main table holds base elements. -/
def MainIsBase (t : Tables) : Prop :=
  ∀ row column x, 0 ≤ column → t.cell? .main row column = some x → x.isBase = true

variable {t : Tables} {height : Nat} {width : Table → Int} {table : Table} {row : Nat}
  {column : Int} {x : Scalar}

theorem rows_set (other : Table) : (t.set table row column x).rows other =
    if other = table then (t.rows other).modify row fun entries =>
      entries.setIfInBounds column.toNat x else t.rows other := by
  cases table <;> cases other <;> rfl

theorem getD_rows_set (hrow : row < (t.rows table).size) (other : Table) (i : Nat) :
    ((t.set table row column x).rows other).getD i #[] =
      if other = table ∧ i = row then ((t.rows other).getD i #[]).setIfInBounds column.toNat x
      else (t.rows other).getD i #[] := by
  rw [rows_set]
  by_cases ht : other = table
  · subst ht
    simp only [if_true, true_and, Array.getD_eq_getD_getElem?, Array.getElem?_modify]
    by_cases hi : i = row
    · subst hi
      simp [hrow]
    · simp [hi, Ne.symm hi]
  · simp [ht]

theorem Sized.set (h : t.Sized height width) (hrow : row < height) :
    (t.set table row column x).Sized height width := by
  refine ⟨fun other => ?_, fun other i hi => ?_⟩
  · rw [rows_set]
    split
    · rw [Array.size_modify, h.size]
    · exact h.size other
  · rw [getD_rows_set (by rw [h.size]; exact hrow)]
    split
    · rw [Array.size_setIfInBounds, h.width other i hi]
    · exact h.width other i hi

/-- A cell after another, or the same, was replaced. -/
theorem cell?_set (h : t.Sized height width) (hrow : row < height) (h₀ : 0 ≤ column)
    (hlt : column < width table) {other : Table} {i : Nat} {c : Int} (hc : 0 ≤ c) :
    (t.set table row column x).cell? other i c =
      if other = table ∧ i = row ∧ c = column then some x else t.cell? other i c := by
  have hsize := h.width table row hrow
  rw [cell?, cell?, getD_rows_set (by rw [h.size]; exact hrow), itemAt?_of_nonneg _ hc,
    itemAt?_of_nonneg _ hc]
  by_cases hti : other = table ∧ i = row
  · obtain ⟨rfl, rfl⟩ := hti
    rw [if_pos ⟨rfl, rfl⟩, Array.getElem?_setIfInBounds]
    by_cases hcc : c = column
    · subst hcc
      rw [if_pos rfl, if_pos (by omega), if_pos ⟨rfl, rfl, rfl⟩]
    · rw [if_neg (by omega), if_neg (by tauto)]
  · rw [if_neg hti, if_neg (by tauto)]

theorem sized_of_forall (hsize : t.main.size = t.aux.size)
    (hwidth : ∀ table, ∀ entries ∈ t.rows table, (entries.size : Int) = width table) :
    t.Sized t.main.size width := by
  have hsizes : ∀ table, (t.rows table).size = t.main.size := fun table => by
    cases table with
    | main => rfl
    | aux => exact hsize.symm
  refine ⟨hsizes, fun table row hrow => hwidth table _ ?_⟩
  rw [Array.getD_eq_getD_getElem?, Array.getElem?_eq_getElem (by rw [hsizes]; exact hrow),
    Option.getD_some]
  exact Array.getElem_mem _

/-- The entries of a table are its cells from column zero on. -/
theorem mem_rows_iff :
    (∃ entries ∈ t.rows table, x ∈ entries) ↔ ∃ row column, 0 ≤ column ∧
      t.cell? table row column = some x := by
  constructor
  · rintro ⟨entries, hentries, hx⟩
    obtain ⟨i, hi, rfl⟩ := Array.getElem_of_mem hentries
    obtain ⟨j, hj, rfl⟩ := Array.getElem_of_mem hx
    refine ⟨i, j, by omega, ?_⟩
    simp [cell?, itemAt?_of_nonneg, hi, hj]
  · rintro ⟨row, column, h₀, hcell⟩
    rw [cell?, itemAt?_of_nonneg _ h₀, Array.getD_eq_getD_getElem?] at hcell
    cases hrow : (t.rows table)[row]? with
    | none => simp [hrow] at hcell
    | some entries =>
      rw [hrow, Option.getD_some] at hcell
      exact ⟨entries, Array.mem_of_getElem? hrow, Array.mem_of_getElem? hcell⟩

/-! ## Windows -/

/-- What constraints of a role see at a row. -/
def window (t : Tables) (challenges : Array Scalar) (role : Role) (row : Nat) : Rows where
  currentMain := t.main.getD row #[]
  currentAux := t.aux.getD row #[]
  nextMain := DerivedColumns.following role t.main row
  nextAux := DerivedColumns.following role t.aux row
  challenges := challenges

theorem itemAt?_window (t : Tables) (challenges : Array Scalar) (role : Role)
    (row : Nat) (c : Cell) :
    itemAt? ((t.window challenges role row).row c.row c.table) c.column =
      match c.row with
      | .current => t.cell? c.table row c.column
      | .next => if role.isDualRow then t.cell? c.table (row + 1) c.column else none := by
  obtain ⟨crow, table, column⟩ := c
  cases crow with
  | current => cases table <;> rfl
  | next =>
    cases hd : role.isDualRow with
    | true => cases table <;> simp [window, Rows.row, DerivedColumns.following, hd, cell?, rows]
    | false => cases table <;> simp [window, Rows.row, DerivedColumns.following, hd, itemAt?_empty]

/-- Windows agree on an expression if the tables agree on the columns that it reads. -/
theorem value_window_congr {t t' : Tables} {challenges : Array Scalar} {role : Role}
    {row : Nat} {e : Expr}
    (h : ∀ c : Cell, .input c ∈ e.vars →
      ∀ i, t'.cell? c.table i c.column = t.cell? c.table i c.column) :
    e.value (t'.window challenges role row).assignment =
      e.value (t.window challenges role row).assignment := by
  refine Expr.value_congr fun x hx => ?_
  cases x with
  | constant s => rfl
  | input c =>
    simp only [Leaf.value, Rows.assignment, itemAt?_window, h c hx]
  | challenge i => rfl

end Tables

/-- The variable can be read in windows of the role. -/
def Visible (width : Table → Int) (challenges : Array Scalar) (role : Role) : Leaf → Prop
  | .constant _ => True
  | .input c => 0 ≤ c.column ∧ c.column < width c.table ∧ (c.row = .next → role.isDualRow = true)
  | .challenge i => 0 ≤ i ∧ i < challenges.size

theorem Tables.Sized.readable {t : Tables} {height : Nat} {width : Table → Int}
    (h : t.Sized height width) {challenges : Array Scalar} {role : Role} {row : Nat}
    (hrow : row < DerivedColumns.filledRows role height) {x : Leaf}
    (hx : Visible width challenges role x) : x.Readable (t.window challenges role row) := by
  cases x with
  | constant s => exact ⟨s, rfl⟩
  | input c =>
    obtain ⟨h₀, hlt, hnext⟩ := hx
    have hcell : ∀ i, i < height → ∃ s, t.cell? c.table i c.column = some s := fun i hi => by
      obtain ⟨s, hs, -⟩ := itemAt?_of_lt h₀ ((h.width c.table i hi).symm ▸ hlt)
      exact ⟨s, hs⟩
    have hfind : ∃ s, itemAt? ((t.window challenges role row).row c.row c.table) c.column =
        some s := by
      rw [itemAt?_window]
      cases hr : c.row with
      | current =>
        refine hcell row ?_
        unfold DerivedColumns.filledRows at hrow
        split at hrow <;> omega
      | next =>
        have hdual := hnext hr
        rw [DerivedColumns.filledRows, if_pos hdual] at hrow
        simp only [hdual, if_true]
        exact hcell (row + 1) (by omega)
    obtain ⟨s, hs⟩ := hfind
    exact ⟨s, by rw [Leaf.eval, hs]; rfl⟩
  | challenge i =>
    obtain ⟨s, hs, -⟩ := itemAt?_of_lt hx.1 hx.2
    exact ⟨s, by
      rw [Leaf.eval, show (t.window challenges role row).challenges = challenges from rfl, hs]; rfl⟩

/-! ## Steps -/

/-- Fills one cell of a derived column. -/
structure FillStep where
  table : Table
  rule : FillRule
  row : Nat

/-- The expression reads no cell of the column. -/
def Expr.Avoids (e : Expr) (table : Table) (column : Int) : Prop :=
  ∀ c : Cell, .input c ∈ e.vars → ¬ (c.table = table ∧ c.column = column)

namespace FillStep

/-- Evaluates the expression at the row and writes the cell. -/
def run (challenges : Array Scalar) (q : FillStep) : Fill Unit :=
  match q.table with
  | .main => DerivedColumns.fillMainCell q.rule q.row
  | .aux => DerivedColumns.fillAuxCell challenges q.rule q.row

/-- The column is there, and the expression can be evaluated and does not read the column. -/
structure Legal (height : Nat) (width : Table → Int) (challenges : Array Scalar)
    (q : FillStep) : Prop where
  row_lt : q.row < DerivedColumns.filledRows q.rule.role height
  unfolds : ∃ (a : Arena) (i : Nat), a.Unfolds i q.rule.expr
  visible : ∀ x ∈ q.rule.expr.vars, Visible width challenges q.rule.role x
  nonneg : 0 ≤ q.rule.column
  lt_width : q.rule.column < width q.table
  avoids : q.rule.expr.Avoids q.table q.rule.column
  isBase : q.table = .main → q.rule.expr.isBase = true

/-- The second step overwrites neither what the first one wrote nor what it read. -/
def Precedes (p q : FillStep) : Prop :=
  p.rule.expr.Avoids q.table q.rule.column ∧
    ¬ (p.table = q.table ∧ p.row = q.row ∧ p.rule.column = q.rule.column)

end FillStep

theorem Expr.eval_congr {rows rows' : Rows} {e : Expr}
    (h : ∀ x ∈ e.vars, x.eval rows = x.eval rows') : e.eval rows ∅ = e.eval rows' ∅ := by
  induction e with
  | leaf x =>
    cases x with
    | constant s => rfl
    | input c => exact h _ (by simp [vars])
    | challenge i => exact h _ (by simp [vars])
  | shared i => rfl
  | operation op l r ihl ihr =>
    rw [eval, eval, ihl fun x hx => h x (List.mem_append_left _ hx),
      ihr fun x hx => h x (List.mem_append_right _ hx)]

/-- An expression over the base field stays in it. -/
theorem Expr.isBase_of_eval {rows : Rows} {e : Expr} (hb : e.isBase = true)
    (h : ∀ x ∈ e.vars, ∀ s, x.eval rows = .ok s → s.isBase = true) {v : Scalar}
    (hv : e.eval rows ∅ = .ok v) : v.isBase = true := by
  induction e generalizing v with
  | leaf x =>
    cases x with
    | constant s => cases hv; exact hb
    | input c => exact h _ (by simp [vars]) v hv
    | challenge i => exact h _ (by simp [vars]) v hv
  | shared i => cases hb
  | operation op l r ihl ihr =>
    simp only [isBase, Bool.and_eq_true] at hb
    obtain ⟨x, hx, hv⟩ := exists_of_bind_eq_ok hv
    obtain ⟨y, hy, hv⟩ := exists_of_bind_eq_ok hv
    cases hv
    rw [op.isBase_apply, ihl hb.1 (fun z hz => h z (List.mem_append_left _ hz)) hx,
      ihr hb.2 (fun z hz => h z (List.mem_append_right _ hz)) hy]
    rfl

namespace DerivedColumns

theorem filledRows_le (role : Role) (height : Nat) : filledRows role height ≤ height := by
  unfold filledRows
  split <;> omega

theorem bind_setCell {rows : Array (Array Scalar)} {row : Nat} {column : Int} (h₀ : 0 ≤ column)
    (hlt : column < (rows.getD row #[]).size) {value : Except FillError Scalar} {x : Scalar}
    (hx : value = .ok x) :
    (value >>= setCell rows row column) =
      .ok (rows.modify row fun entries => entries.setIfInBounds column.toNat x) := by
  rw [hx]
  show setCell rows row column x = _
  rw [setCell, position?_of_lt h₀ hlt]

variable {rule : FillRule} {t : Tables} {row : Nat} {x : Scalar}

theorem fillMainCell_eq (h₀ : 0 ≤ rule.column) (hlt : rule.column < (t.main.getD row #[]).size)
    (hx : mainValue rule t.main row = .ok x) :
    fillMainCell rule row t = .ok () (t.set .main row rule.column x) := by
  simp only [fillMainCell, bind_setCell h₀ hlt hx]
  rfl

theorem fillAuxCell_eq {challenges : Array Scalar} (h₀ : 0 ≤ rule.column)
    (hlt : rule.column < (t.aux.getD row #[]).size) (hx : auxValue rule challenges t row = .ok x) :
    fillAuxCell challenges rule row t = .ok () (t.set .aux row rule.column x) := by
  simp only [fillAuxCell, bind_setCell h₀ hlt hx]
  rfl

/-- An expression over the base field is evaluated on main rows alone. -/
theorem mainValue_eq (hb : rule.expr.isBase = true) (challenges : Array Scalar) {b : Base}
    (hx : rule.expr.eval (t.window challenges rule.role row) ∅ = .ok (.base b)) :
    mainValue rule t.main row = .ok (.base b) := by
  have hmain : rule.expr.eval { Rows.empty with
      currentMain := t.main.getD row #[]
      nextMain := following rule.role t.main row } ∅ = .ok (.base b) := by
    rw [← hx]
    refine Expr.eval_congr fun v hv => ?_
    obtain ⟨⟨row, table, column⟩, hc, rfl⟩ := Expr.exists_main_of_isBase hb hv
    cases hc
    cases row <;> rfl
  simp only [mainValue, hmain]
  rfl

theorem auxValue_eq {challenges : Array Scalar}
    (hx : rule.expr.eval (t.window challenges rule.role row) ∅ = .ok x) :
    auxValue rule challenges t row = .ok (.ext x.lift) := by
  rw [auxValue]
  show ((rule.expr.eval (t.window challenges rule.role row) ∅).mapError FillError.eval >>= _) = _
  rw [hx]
  rfl

end DerivedColumns

namespace FillStep

variable {challenges : Array Scalar} {height : Nat} {width : Table → Int}
  {t : Tables} {q : FillStep}

theorem Legal.eval (hq : q.Legal height width challenges) (ht : t.Sized height width)
    (hbase : t.MainIsBase) :
    ∃ x, q.rule.expr.eval (t.window challenges q.rule.role q.row) ∅ = .ok x ∧
      x.lift = q.rule.expr.value (t.window challenges q.rule.role q.row).assignment ∧
      (q.table = .main → x.isBase = true) := by
  obtain ⟨a, i, hu⟩ := hq.unfolds
  obtain ⟨x, hx, hlift⟩ := hu.eval_of_readable fun v hv => ht.readable hq.row_lt (hq.visible v hv)
  refine ⟨x, hx, hlift, fun hmain => Expr.isBase_of_eval (hq.isBase hmain) (fun v hv s hs => ?_) hx⟩
  -- what an expression over the base field reads is cells of the main table, of this row or the
  -- next
  obtain ⟨c, hc, rfl⟩ := Expr.exists_main_of_isBase (hq.isBase hmain) hv
  have h₀ : 0 ≤ c.column := (hq.visible _ hv).1
  rw [Leaf.eval, Tables.itemAt?_window, hc] at hs
  have hcell : ∀ y, Option.elim y (.error .outOfRange) .ok = (.ok s : Except EvalError Scalar) →
      y = some s := by
    intro y hy
    cases y <;> cases hy
    rfl
  have hs := hcell _ hs
  split at hs
  · exact hbase _ _ s h₀ hs
  · split at hs
    · exact hbase _ _ s h₀ hs
    · cases hs

/-- A step writes the value of its expression. -/
theorem Legal.run_eq (hq : q.Legal height width challenges) (ht : t.Sized height width)
    (hbase : t.MainIsBase) :
    ∃ x, q.run challenges t = .ok () (t.set q.table q.row q.rule.column x) ∧
      x.lift = q.rule.expr.value (t.window challenges q.rule.role q.row).assignment ∧
      (q.table = .main → x.isBase = true) := by
  obtain ⟨x, hx, hlift, hxb⟩ := hq.eval ht hbase
  have hrow : q.row < height := Nat.lt_of_lt_of_le hq.row_lt (DerivedColumns.filledRows_le _ _)
  have hlt : q.rule.column < ((t.rows q.table).getD q.row #[]).size := by
    rw [ht.width _ _ hrow]; exact hq.lt_width
  cases hqt : q.table with
  | main =>
    rw [hqt] at hlt
    cases x with
    | base b =>
      refine ⟨.base b, ?_, hlift, fun _ => rfl⟩
      rw [run, hqt]
      exact DerivedColumns.fillMainCell_eq hq.nonneg hlt
        (DerivedColumns.mainValue_eq (hq.isBase hqt) challenges hx)
    | ext y => cases hxb hqt
  | aux =>
    rw [hqt] at hlt
    refine ⟨.ext x.lift, ?_, hlift, fun h => by cases h⟩
    rw [run, hqt]
    exact DerivedColumns.fillAuxCell_eq hq.nonneg hlt (DerivedColumns.auxValue_eq hx)

end FillStep

/-- What holds after some steps. -/
structure Filled (challenges : Array Scalar) (height : Nat) (width : Table → Int) (t₀ : Tables)
    (done : List FillStep) (t : Tables) : Prop where
  sized : t.Sized height width
  mainIsBase : t.MainIsBase
  kept : ∀ table row column, 0 ≤ column →
    (∀ p ∈ done, ¬ (p.table = table ∧ p.row = row ∧ p.rule.column = column)) →
    t.cell? table row column = t₀.cell? table row column
  /-- A cell that was written holds the value of its expression, in the tables as they are now. -/
  solved : ∀ p ∈ done, ∃ x, t.cell? p.table p.row p.rule.column = some x ∧
    x.lift = p.rule.expr.value (t.window challenges p.rule.role p.row).assignment

namespace Filled

variable {challenges : Array Scalar} {height : Nat} {width : Table → Int} {t₀ t : Tables}
  {done : List FillStep} {q : FillStep}

theorem start (ht : t.Sized height width) (hbase : t.MainIsBase) :
    Filled challenges height width t [] t :=
  ⟨ht, hbase, fun _ _ _ _ _ => rfl, by simp⟩

/-- A step that may follow the others succeeds, and leaves what they did. -/
theorem step (h : Filled challenges height width t₀ done t)
    (hdone : ∀ p ∈ done, p.Legal height width challenges) (hq : q.Legal height width challenges)
    (hpq : ∀ p ∈ done, p.Precedes q) :
    ∃ t', q.run challenges t = .ok () t' ∧ Filled challenges height width t₀ (done ++ [q]) t' := by
  obtain ⟨x, hrun, hx, hxb⟩ := hq.run_eq h.sized h.mainIsBase
  have hrow : q.row < height := Nat.lt_of_lt_of_le hq.row_lt (DerivedColumns.filledRows_le _ _)
  have hset : ∀ {table : Table} {row : Nat} {column : Int}, 0 ≤ column →
      (t.set q.table q.row q.rule.column x).cell? table row column =
        if table = q.table ∧ row = q.row ∧ column = q.rule.column then some x
          else t.cell? table row column :=
    fun hc => Tables.cell?_set h.sized hrow hq.nonneg hq.lt_width hc
  -- expressions that do not read the column have the values that they had
  have hsame : ∀ p : FillStep, p.Legal height width challenges →
      p.rule.expr.Avoids q.table q.rule.column →
      p.rule.expr.value
        ((t.set q.table q.row q.rule.column x).window challenges p.rule.role p.row).assignment =
        p.rule.expr.value (t.window challenges p.rule.role p.row).assignment := by
    intro p hp havoid
    refine Tables.value_window_congr fun c hc i => ?_
    rw [hset (hp.visible _ hc).1, if_neg fun heq => havoid c hc ⟨heq.1, heq.2.2⟩]
  refine ⟨_, hrun, h.sized.set hrow, fun row column y hc hy => ?_, fun table row column hc hp => ?_,
    fun p hp => ?_⟩
  · rw [hset hc] at hy
    split at hy
    · rename_i heq
      cases hy
      exact hxb heq.1.symm
    · exact h.mainIsBase row column y hc hy
  · rw [hset hc, if_neg fun heq => hp q (by simp) ⟨heq.1.symm, heq.2.1.symm, heq.2.2.symm⟩]
    exact h.kept table row column hc fun p hm => hp p (List.mem_append_left _ hm)
  · rcases List.mem_append.1 hp with hp | hp
    · obtain ⟨y, hy, hlift⟩ := h.solved p hp
      obtain ⟨havoid, hne⟩ := hpq p hp
      refine ⟨y, ?_, by rw [hsame p (hdone p hp) havoid, hlift]⟩
      rw [hset (hdone p hp).nonneg, if_neg hne, hy]
    · obtain rfl := List.mem_singleton.1 hp
      refine ⟨x, ?_, by rw [hsame p hq hq.avoids, hx]⟩
      rw [hset hq.nonneg, if_pos ⟨rfl, rfl, rfl⟩]

/-- Steps in an order in which each may be followed by those after it succeed one after another. -/
theorem run (h : Filled challenges height width t₀ done t) (steps : List FillStep)
    (hlegal : ∀ p ∈ done ++ steps, p.Legal height width challenges)
    (hpairwise : (done ++ steps).Pairwise FillStep.Precedes) :
    ∃ t', steps.forM (FillStep.run challenges) t = .ok () t' ∧
      Filled challenges height width t₀ (done ++ steps) t' := by
  induction steps generalizing done t with
  | nil => exact ⟨t, rfl, by rwa [List.append_nil]⟩
  | cons q steps ih =>
    have hpq : ∀ p ∈ done, p.Precedes q := fun p hp =>
      (List.pairwise_append.1 hpairwise).2.2 p hp q List.mem_cons_self
    obtain ⟨t₁, hrun, hstep⟩ :=
      h.step (fun p hp => hlegal p (List.mem_append_left _ hp)) (hlegal q (by simp)) hpq
    rw [List.append_cons] at hlegal hpairwise ⊢
    obtain ⟨t', hrest, hend⟩ := ih hstep hlegal hpairwise
    refine ⟨t', ?_, hend⟩
    show (FillStep.run challenges q >>= fun _ => steps.forM (FillStep.run challenges)) t = _
    rw [Build.bind_of_ok hrun, hrest]

end Filled

/-! ## Loops as sequences of steps -/

namespace DerivedColumns

/-- The rules of a table's columns. -/
def rules (d : DerivedColumns) : Table → List FillRule
  | .main => d.mainRules
  | .aux => d.auxRules

/-- The steps that fill columns of a table: column by column, each from the first row on. -/
def steps (table : Table) (height : Nat) (rules : List FillRule) : List FillStep :=
  rules.flatMap fun rule => (List.range (filledRows rule.role height)).map fun row =>
    ⟨table, rule, row⟩

variable {challenges : Array Scalar} {table : Table} {height : Nat} {width : Table → Int}
  {t : Tables} {rules : List FillRule}

theorem mem_steps {p : FillStep} : p ∈ steps table height rules ↔
    p.table = table ∧ p.rule ∈ rules ∧ p.row < filledRows p.rule.role height := by
  simp only [steps, List.mem_flatMap, List.mem_map, List.mem_range]
  constructor
  · rintro ⟨rule, hr, row, hrow, rfl⟩
    exact ⟨rfl, hr, hrow⟩
  · rintro ⟨rfl, hr, hrow⟩
    exact ⟨p.rule, hr, p.row, hrow, rfl⟩

/-- Columns may be filled in an order in which no rule reads its own column or one after it. -/
theorem pairwise_steps (hown : ∀ r ∈ rules, r.expr.Avoids table r.column)
    (h : rules.Pairwise fun r r' => r.expr.Avoids table r'.column ∧ r.column ≠ r'.column) :
    (steps table height rules).Pairwise FillStep.Precedes := by
  refine List.pairwise_flatMap.2 ⟨fun r hr => ?_, h.imp fun {r r'} hrr' => ?_⟩
  · refine List.pairwise_map.2
      (List.nodup_range.imp fun {i j} hij => ⟨hown r hr, fun heq => hij heq.2.1⟩)
  · intro p hp q hq
    obtain ⟨i, -, rfl⟩ := List.mem_map.1 hp
    obtain ⟨j, -, rfl⟩ := List.mem_map.1 hq
    exact ⟨hrr'.1, fun heq => hrr'.2 heq.2.2⟩

theorem fillColumns_eq {cell : FillRule → Nat → Fill Unit}
    (hcell : ∀ rule row, cell rule row = FillStep.run challenges ⟨table, rule, row⟩) (height : Nat)
    (rules : List FillRule) :
    fillColumns cell height rules = (steps table height rules).forM (FillStep.run challenges) := by
  induction rules with
  | nil => rfl
  | cons rule rules ih =>
    have hrule : cell rule = fun row => FillStep.run challenges ⟨table, rule, row⟩ :=
      funext (hcell rule)
    simp only [fillColumns, steps, List.forM_eq_forM, List.forM_cons, List.flatMap_cons,
      List.forM_append, List.forM_map, hrule] at ih ⊢
    rw [ih]

theorem checkWidths_eq_ok (ht : t.Sized height width) (table : Table) :
    checkWidths table (t.rows table) (width table) = .ok () := by
  refine forM_eq_ok_iff.2 fun ⟨row, i⟩ hm => ?_
  have hget := List.mem_zipIdx_iff_getElem?.1 hm
  rw [Array.getElem?_toList] at hget
  have hi : i < height := ht.size table ▸ (Array.getElem?_eq_some_iff.1 hget).1
  have hwidth := ht.width table i hi
  rw [Array.getD_eq_getD_getElem?, hget, Option.getD_some] at hwidth
  exact if_pos hwidth

theorem checked_of_ok {check : Tables → Except FillError Unit} (h : check t = .ok ()) :
    checked check t = .ok () t := by
  rw [checked, h]

theorem fillMain_eq {d : DerivedColumns} (ht : t.Sized height width)
    (hmain : d.mainColumns = width .main) (challenges : Array Scalar) :
    d.fillMain t = (steps .main height d.mainRules).forM (FillStep.run challenges) t := by
  have hcheck : checkWidths .main t.main d.mainColumns = .ok () :=
    hmain ▸ checkWidths_eq_ok ht .main
  have hcell : ∀ rule row, fillMainCell rule row = FillStep.run challenges ⟨.main, rule, row⟩ :=
    fun _ _ => rfl
  rw [fillMain, Build.bind_of_ok (checked_of_ok hcheck),
    Build.bind_of_ok (show (get : Fill Tables) t = .ok t t from rfl),
    show t.main.size = height from ht.size .main, fillColumns_eq hcell]

theorem fillAux_eq {d : DerivedColumns} (ht : t.Sized height width)
    (hmain : d.mainColumns = width .main) (haux : d.auxColumns = width .aux) :
    d.fillAux challenges t = (steps .aux height d.auxRules).forM (FillStep.run challenges) t := by
  have hsize : t.main.size = t.aux.size := (ht.size .main).trans (ht.size .aux).symm
  have hcheck : (do
      if t.main.size ≠ t.aux.size then throw (.height t.main.size t.aux.size)
      checkWidths .main t.main d.mainColumns
      checkWidths .aux t.aux d.auxColumns : Except FillError Unit) = .ok () := by
    rw [if_neg (not_not.2 hsize), hmain, haux,
      show checkWidths .main t.main (width .main) = .ok () from checkWidths_eq_ok ht .main]
    exact checkWidths_eq_ok ht .aux
  have hcell : ∀ rule row,
    fillAuxCell challenges rule row = FillStep.run challenges ⟨.aux, rule, row⟩ := fun _ _ => rfl
  rw [fillAux, Build.bind_of_ok (checked_of_ok hcheck),
    Build.bind_of_ok (show (get : Fill Tables) t = .ok t t from rfl),
    show t.main.size = height from ht.size .main, fillColumns_eq hcell]

/-- The steps that fill both tables, the main table first. -/
def allSteps (d : DerivedColumns) (height : Nat) : List FillStep :=
  steps .main height d.mainRules ++ steps .aux height d.auxRules

theorem mem_allSteps {d : DerivedColumns} {p : FillStep} :
    p ∈ d.allSteps height ↔ p.rule ∈ d.rules p.table ∧ p.row < filledRows p.rule.role height := by
  rw [allSteps, List.mem_append, mem_steps, mem_steps]
  cases ht : p.table <;> simp [DerivedColumns.rules]

/-- Both tables are filled if their steps are legal and stand in a possible order. -/
theorem fill_spec {d : DerivedColumns} (ht : t.Sized height width)
    (hmain : d.mainColumns = width .main) (haux : d.auxColumns = width .aux) (hbase : t.MainIsBase)
    (hlegal : ∀ p ∈ d.allSteps height, p.Legal height width challenges)
    (hpairwise : (d.allSteps height).Pairwise FillStep.Precedes) :
    ∃ t', (do d.fillMain; d.fillAux challenges) t = .ok () t' ∧
      Filled challenges height width t (d.allSteps height) t' := by
  obtain ⟨t₁, h₁, hf₁⟩ := (Filled.start ht hbase).run (steps .main height d.mainRules)
    (fun p hp => hlegal p (List.mem_append_left _ hp)) (List.pairwise_append.1 hpairwise).1
  obtain ⟨t', h', hf'⟩ := hf₁.run (steps .aux height d.auxRules) hlegal hpairwise
  refine ⟨t', ?_, hf'⟩
  rw [Build.bind_of_ok ((fillMain_eq ht hmain challenges).trans h₁),
    fillAux_eq hf₁.sized hmain haux, h']

end DerivedColumns

end AirCompiler
