import AirCompiler.Proofs.System.Columns

/-!
# Lowering again and again

Lowering leaves the shape as it is, so every call numbers its new columns from the same place,
whatever earlier calls took.

* `Substitutions.NumberedFrom`: the columns of one call are those after the shape's, each once.
* `ConstraintSystem.lower_step`: one call on a valid system, which stays valid and of the same
  shape.
* `ConstraintSystem.History`: what the systems that the calls find refer to, kept by `History.cons`.
* `ConstraintSystem.lowerEach_fresh_iff`: all new columns are fresh exactly if no two calls take
  columns of one table.
-/

namespace AirCompiler

namespace Substitutions

/-- The new columns, in the order in which they were taken. -/
def columns (subs : Substitutions) : List Cell := (Role.all.flatMap subs.rules.get).map Rule.column

def count (subs : Substitutions) : Table → Nat
  | .main => subs.mainCount
  | .aux => subs.auxCount

theorem count_eq (subs : Substitutions) (table : Table) :
    subs.count table = (Role.all.flatMap subs.rules.get).countP fun rule =>
      rule.column.table = table := by
  cases table with
  | main => exact subs.mainCount_eq
  | aux => exact subs.auxCount_eq

/-- The new columns follow those of the shape. -/
structure NumberedFrom (subs : Substitutions) (shape : Shape) : Prop where
  nodup : subs.columns.Nodup
  mem_iff : ∀ cell, cell ∈ subs.columns ↔ cell.row = .current ∧
    shape.columns cell.table ≤ cell.column ∧
    cell.column < shape.columns cell.table + subs.count cell.table

namespace NumberedFrom

variable {p q : Substitutions} {shape : Shape}

theorem first_mem (h : p.NumberedFrom shape) {table : Table} (hp : p.count table ≠ 0) :
    ⟨.current, table, shape.columns table⟩ ∈ p.columns := by
  rw [h.mem_iff]
  refine ⟨rfl, Int.le_refl _, ?_⟩
  simp only
  omega

/-- Two calls that take columns of one table both take the first. -/
theorem disjoint_iff (hp : p.NumberedFrom shape) (hq : q.NumberedFrom shape) :
    p.columns.Disjoint q.columns ↔ ∀ table, p.count table = 0 ∨ q.count table = 0 := by
  constructor
  · intro h table
    by_contra hne
    rw [not_or] at hne
    exact h (hp.first_mem hne.1) (hq.first_mem hne.2)
  · intro h cell hcp hcq
    obtain ⟨-, hle, hltp⟩ := (hp.mem_iff cell).1 hcp
    obtain ⟨-, -, hltq⟩ := (hq.mem_iff cell).1 hcq
    rcases h cell.table with hzero | hzero
    · omega
    · omega

end NumberedFrom

end Substitutions

namespace ConstraintSystem

variable {s s' : ConstraintSystem} {limits₀ limits : Limits} {subs : Substitutions}

/-! ## One call -/

theorem Stage.numberedFrom (h : Stage s limits₀ Role.all s' limits subs)
    (hcolumns : ∀ table, limits₀.columns table = s.shape.columns table) :
    subs.NumberedFrom s.shape where
  nodup := h.derived.nodup
  mem_iff cell := by
    rw [← hcolumns, subs.count_eq]
    constructor
    · intro hc
      obtain ⟨rule, hr, rfl⟩ := List.mem_map.1 hc
      exact h.derived.column_bounds hr
    · rintro ⟨hrow, hle, hlt⟩
      have hnumber : cell ∈ (List.range ((Role.all.flatMap subs.rules.get).countP
          fun rule => rule.column.table = cell.table)).map fun i : Nat =>
            ⟨.current, cell.table, limits₀.columns cell.table + i⟩ := by
        refine List.mem_map.2 ⟨(cell.column - limits₀.columns cell.table).toNat,
          List.mem_range.2 (by omega), ?_⟩
        apply Cell.ext
        · exact hrow.symm
        · rfl
        · simp only
          omega
      rw [← h.derived.columns_eq] at hnumber
      obtain ⟨rule, hr, rfl⟩ := List.mem_map.1 hnumber
      exact List.mem_map_of_mem (List.mem_filter.1 hr).1

theorem validate_of_combine (h : (s.combine subs).validate = .ok ()) : s.validate = .ok () :=
  validate_iff.2 fun role x hx => validate_iff.1 h role x (mem_combine.2 (.inl hx))

theorem cells_subset_combine (s : ConstraintSystem) (subs : Substitutions) (role : Role) :
    s.cells role ⊆ (s.combine subs).cells role := by
  intro cell hc
  obtain ⟨x, hx, c, hxc, hcell⟩ := exists_handle_of_mem_cells hc
  exact mem_cells_of_handle (mem_combine.2 (.inl hx)) hxc hcell

/-- One call leaves a valid system of the same shape, which refers to new columns of that call and
to no others. -/
theorem lower_step (hv : s.validate = .ok ()) {target : Int} (ht : 2 ≤ target) :
    ∃ subs s', lower target s = .ok subs s' ∧ s'.validate = .ok () ∧ s'.shape = s.shape ∧
      subs.NumberedFrom s.shape ∧
      ∀ role, ∀ cell ∈ s'.cells role, cell ∈ s.cells role ∨ cell ∈ subs.columns := by
  obtain ⟨subs, s', limits, hrun, h⟩ :=
    exists_lower_of_validate hv (by rw [Limits.check, dif_pos ht])
  refine ⟨subs, s', hrun, validate_of_combine (h.validate_combine hv), h.shape_eq,
    h.numberedFrom fun table => by cases table <;> rfl, fun role cell hc => ?_⟩
  refine (h.cells_combine (cells_subset_combine s' subs role hc)).imp_right fun hm => ?_
  exact List.map_subset _ (fun rule hr => LowersTo.mem_all subs hr) hm

/-! ## Many calls -/

/-- Lowers a system to one target after the other, and returns for each call the system that it
found and its rules. -/
def lowerEach :
    List Int → EStateM CompileError ConstraintSystem (List (ConstraintSystem × Substitutions))
  | [] => return []
  | target :: targets => do
    let s ← get
    let subs ← lower target
    return (s, subs) :: (← lowerEach targets)

theorem lowerEach_cons {target : Int} {targets : List Int}
    {calls : List (ConstraintSystem × Substitutions)} {s₁ : ConstraintSystem}
    (h : lower target s = .ok subs s₁) (hs : lowerEach targets s₁ = .ok calls s') :
    lowerEach (target :: targets) s = .ok ((s, subs) :: calls) s' := by
  have hunfold : lowerEach (target :: targets) s =
      (do let subs ← lower target; return (s, subs) :: (← lowerEach targets)) s := rfl
  rw [hunfold]
  simp only [bind, EStateM.bind, h, hs, pure, EStateM.pure]

/-- No constraint that a call finds refers to a column that the call takes, and no column is taken
twice. -/
structure Fresh (calls : List (ConstraintSystem × Substitutions)) : Prop where
  unused : ∀ call ∈ calls, ∀ cell ∈ call.2.columns, ∀ role, cell ∉ call.1.cells role
  nodup : (calls.flatMap fun call => call.2.columns).Nodup

/-- What the calls on a system take, and what they find. -/
structure History (s : ConstraintSystem)
    (calls : List (ConstraintSystem × Substitutions)) : Prop where
  numbered : ∀ call ∈ calls, call.2.NumberedFrom s.shape
  /-- A call finds cells of the system and columns of the calls before it. -/
  found : ∀ earlier call later, calls = earlier ++ call :: later →
    ∀ role, ∀ cell ∈ call.1.cells role, cell ∈ s.cells role ∨ ∃ p ∈ earlier, cell ∈ p.2.columns

namespace History

variable {calls : List (ConstraintSystem × Substitutions)}

theorem nil (s : ConstraintSystem) : s.History [] where
  numbered _ h := by cases h
  found earlier _ _ h := by cases earlier <;> cases h

theorem cons (hshape : s'.shape = s.shape) (hnumbered : subs.NumberedFrom s.shape)
    (hcells : ∀ role, ∀ cell ∈ s'.cells role, cell ∈ s.cells role ∨ cell ∈ subs.columns)
    (h : s'.History calls) : s.History ((s, subs) :: calls) where
  numbered call hm := by
    rcases List.mem_cons.1 hm with rfl | hm
    · exact hnumbered
    · exact hshape ▸ h.numbered call hm
  found earlier call later heq role cell hc := by
    cases earlier with
    | nil =>
      cases heq
      exact .inl hc
    | cons p earlier =>
      cases heq
      rcases h.found earlier call later rfl role cell hc with hm | ⟨q, hq, hm⟩
      · exact (hcells role cell hm).imp_right fun hm => ⟨_, List.mem_cons_self, hm⟩
      · exact .inr ⟨q, List.mem_cons_of_mem _ hq, hm⟩

theorem nodup_iff (h : s.History calls) : (calls.flatMap fun call => call.2.columns).Nodup ↔
    calls.Pairwise fun p q => ∀ table, p.2.count table = 0 ∨ q.2.count table = 0 := by
  rw [List.nodup_flatMap]
  constructor
  · rintro ⟨-, hd⟩
    exact hd.imp_of_mem fun hp hq => ((h.numbered _ hp).disjoint_iff (h.numbered _ hq)).1
  · intro hd
    refine ⟨fun call hm => (h.numbered call hm).nodup, ?_⟩
    exact hd.imp_of_mem fun hp hq => ((h.numbered _ hp).disjoint_iff (h.numbered _ hq)).2

theorem unused (h : s.History calls) (hs : s.InShape)
    (hd : calls.Pairwise fun p q => ∀ table, p.2.count table = 0 ∨ q.2.count table = 0) :
    ∀ call ∈ calls, ∀ cell ∈ call.2.columns, ∀ role, cell ∉ call.1.cells role := by
  intro call hm cell hnew role hc
  obtain ⟨earlier, later, rfl⟩ := List.append_of_mem hm
  rcases h.found earlier call later rfl role cell hc with hold | ⟨p, hp, hold⟩
  · -- a column of the system is below the first new one of its table
    have hlt := (hs role cell hold).2
    have hle := (((h.numbered call hm).mem_iff cell).1 hnew).2.1
    omega
  · have hcounts := (List.pairwise_append.1 hd).2.2 p hp call List.mem_cons_self
    have hnp := h.numbered p (List.mem_append_left _ hp)
    exact (hnp.disjoint_iff (h.numbered call hm)).2 hcounts hold hnew

theorem fresh_iff (h : s.History calls) (hs : s.InShape) : Fresh calls ↔
    calls.Pairwise fun p q => ∀ table, p.2.count table = 0 ∨ q.2.count table = 0 :=
  ⟨fun hf => h.nodup_iff.1 hf.nodup, fun hd => ⟨h.unused hs hd, h.nodup_iff.2 hd⟩⟩

end History

/-- Every call succeeds on what the calls before it left. -/
theorem exists_lowerEach (hv : s.validate = .ok ()) {targets : List Int}
    (ht : ∀ target ∈ targets, 2 ≤ target) :
    ∃ calls s', lowerEach targets s = .ok calls s' ∧ s.History calls := by
  induction targets generalizing s with
  | nil => exact ⟨[], s, rfl, .nil s⟩
  | cons target targets ih =>
    -- what the first call leaves is valid again, though no longer within its shape
    obtain ⟨subs, s₁, hrun, hv₁, hshape, hnumbered, hcells⟩ :=
      lower_step hv (ht target List.mem_cons_self)
    obtain ⟨calls, s', hruns, h⟩ := ih hv₁ fun t hm => ht t (List.mem_cons_of_mem _ hm)
    exact ⟨(s, subs) :: calls, s', lowerEach_cons hrun hruns, h.cons hshape hnumbered hcells⟩

/-- Repeated lowering takes fresh columns exactly if no two calls take columns of the same table. -/
theorem lowerEach_fresh_iff {s : ConstraintSystem} (hv : s.validate = .ok ()) (hs : s.InShape)
    {targets : List Int} (ht : ∀ target ∈ targets, 2 ≤ target) :
    ∃ calls s', lowerEach targets s = .ok calls s' ∧
      (Fresh calls ↔ calls.Pairwise fun p q => ∀ table, p.2.count table = 0 ∨
        q.2.count table = 0) := by
  obtain ⟨calls, s', hrun, h⟩ := exists_lowerEach hv ht
  exact ⟨calls, s', hrun, h.fresh_iff hs⟩

/-- `cubes` has degree three, so a call with that target takes no columns and the next one does. -/
theorem lowerEach_fresh_cubes : cubes.validate = .ok () ∧ cubes.InShape ∧
    (∀ target ∈ [(3 : Int), 2], 2 ≤ target) ∧
    ∃ calls s', lowerEach [3, 2] cubes = .ok calls s' ∧
      calls.map (fun call => call.2.columns.length) = [0, 2] ∧ Fresh calls := by
  have hv : cubes.validate = .ok () := by decide +kernel
  have hs : cubes.InShape := fun role => by cases role <;> decide +kernel
  have ht : ∀ target ∈ [(3 : Int), 2], 2 ≤ target := by decide
  obtain ⟨calls, s', hrun, hlengths, hcounts⟩ : ∃ calls s', lowerEach [3, 2] cubes = .ok calls s' ∧
      calls.map (fun call => call.2.columns.length) = [0, 2] ∧
      calls.Pairwise fun p q => (p.2.count .main = 0 ∨ q.2.count .main = 0) ∧
        (p.2.count .aux = 0 ∨ q.2.count .aux = 0) :=
    exists_ok (by decide +kernel)
  obtain ⟨_, _, hrun', hiff⟩ := lowerEach_fresh_iff hv hs ht
  rw [hrun] at hrun'
  cases hrun'
  refine ⟨hv, hs, ht, calls, s', hrun, hlengths, hiff.2 (hcounts.imp fun h table => ?_)⟩
  cases table with
  | main => exact h.1
  | aux => exact h.2

open Build in
/-- Two constraints of degrees five and four. -/
def powers : ConstraintSystem := .ofBuild ⟨2, 0, 0⟩ do
  let x ← currentMain 0
  let y ← currentMain 1
  let xx ← times x x
  let yy ← times y y
  return ⟨[], [← times (← times xx xx) x, ← times yy yy], [], []⟩

/-- Lowered to degree four and then to two, `powers` gets its first new column twice, and the second
call finds a constraint that already refers to it. -/
theorem lowerEach_not_fresh_powers : powers.validate = .ok () ∧ powers.InShape ∧
    (∀ target ∈ [(4 : Int), 2], 2 ≤ target) ∧ ∃ calls s', lowerEach [4, 2] powers = .ok calls s' ∧
      (∃ call ∈ calls, ∃ cell ∈ call.2.columns, cell ∈ call.1.cells .consistency) ∧
      ¬ (calls.flatMap fun call => call.2.columns).Nodup := by
  refine ⟨by decide +kernel, fun role => by cases role <;> decide +kernel, by decide, ?_⟩
  exact exists_ok (by decide +kernel)

end ConstraintSystem

end AirCompiler
