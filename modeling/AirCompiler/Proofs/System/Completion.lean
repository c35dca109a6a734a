import AirCompiler.Proofs.Computation
import AirCompiler.Proofs.System.Lowering
import AirCompiler.System.Samples

/-!
# Completing an assignment

Rules that are derived (`Derived`) determine the columns they introduce. `Completes a rules ρ σ`:
the assignment `σ` differs from `ρ` in the columns of the rules only, and all rules hold.

* `Derived.determines`: two assignments under which the rules hold agree on the new columns if they
  agree on the given variables.
* `Derived.exists_completes`: every assignment can be completed, column by column.
* `Lower.bucket_faithful`: where the rules hold, lowered constraints have the values of the given
  ones, and every assignment has exactly one completion.
-/

namespace AirCompiler

/-- The columns in use are numbered from zero. -/
def Limits.Admits (limits : Limits) : Leaf → Prop
  | .input c => 0 ≤ c.column ∧ c.column < limits.columns c.table
  | _ => True

instance Limits.decidableAdmits (limits : Limits) : DecidablePred limits.Admits
  | .input _ => inferInstanceAs (Decidable (_ ∧ _))
  | .constant _ => isTrue trivial
  | .challenge _ => isTrue trivial

/-- The assignment with another value at one cell. -/
def Assignment.set (ρ : Assignment) (c : Cell) (x : Ext) : Assignment :=
  { ρ with cell := Function.update ρ.cell c x }

theorem Assignment.cell_set_self {ρ : Assignment} {c : Cell} {x : Ext} : (ρ.set c x).cell c = x :=
  Function.update_self ..

theorem Assignment.cell_set_of_ne {ρ : Assignment} {c d : Cell} {x : Ext} (h : d ≠ c) :
    (ρ.set c x).cell d = ρ.cell d :=
  Function.update_of_ne h ..

/-- The second assignment differs from the first in the columns of the rules only, and makes all
rules hold. -/
structure Completes (a : Arena) (rules : List Rule) (ρ σ : Assignment) : Prop where
  cell_eq : ∀ c, c ∉ rules.map Rule.column → σ.cell c = ρ.cell c
  challenge_eq : σ.challenge = ρ.challenge
  holds : ∀ rule ∈ rules, rule.Holds a σ

/-- The cells of the main table hold base elements, but for the listed ones. -/
def Assignment.MainIsBase (ρ : Assignment) (but : List Cell) : Prop :=
  ∀ c : Cell, c.table = .main → c ∉ but → (ρ.cell c).IsBase

namespace Derived

variable {a : Arena} {limits : Limits} {given : Leaf → Prop} {rules : List Rule}

/-- A given variable is no column of the rules. -/
theorem not_mem_of_given (h : Derived a limits given rules) (hg : ∀ x, given x → limits.Admits x)
    {c : Cell} (hc : given (.input c)) : c ∉ rules.map Rule.column := by
  intro hm
  obtain ⟨rule, hr, rfl⟩ := List.mem_map.1 hm
  have := (h.column_bounds hr).2.1
  have := (hg _ hc).2
  omega

/-- The next rule does not read its own column. -/
theorem ne_column_of_known (h : Derived a limits given rules) (hg : ∀ x, given x → limits.Admits x)
    (e : Expr) {x : Leaf} (hx : Known given rules x) : x ≠ .input (limits.column rules e) := by
  rintro rfl
  rcases hx with hx | ⟨rule, hr, hx⟩
  · have hlt : _ < _ := (hg _ hx).2
    simp only [Limits.column] at hlt
    omega
  · exact h.column_ne e hr (Leaf.input.inj hx).symm

/-- The given variables determine the columns of the rules. -/
theorem determines (h : Derived a limits given rules) {σ τ : Assignment}
    (hσ : ∀ rule ∈ rules, rule.Holds a σ) (hτ : ∀ rule ∈ rules, rule.Holds a τ)
    (hg : ∀ x, given x → x.value σ = x.value τ) :
    ∀ rule ∈ rules, σ.cell rule.column = τ.cell rule.column := by
  induction h with
  | nil => simp
  | @snoc rules last e _ hd _ _ hv ih =>
    have ih :=
      ih (fun r hr => hσ r (List.mem_append_left _ hr))
        (fun r hr => hτ r (List.mem_append_left _ hr))
    have hlast : last ∈ rules ++ [last] := List.mem_append_right _ (List.mem_singleton_self _)
    have hvalue : e.value σ = e.value τ := Expr.value_congr fun x hx => by
      rcases hv x hx with hx | ⟨r, hr, rfl⟩
      · exact hg x hx
      · exact ih r hr
    intro rule hr
    rcases List.mem_append.1 hr with hr | hr
    · exact ih rule hr
    · obtain rfl := List.mem_singleton.1 hr
      rw [hd.holds_iff.1 (hσ rule hlast), hd.holds_iff.1 (hτ rule hlast), hvalue]

theorem completes_unique (h : Derived a limits given rules) (hg : ∀ x, given x → limits.Admits x)
    {ρ σ τ : Assignment} (hσ : Completes a rules ρ σ) (hτ : Completes a rules ρ τ) : σ = τ := by
  have hchallenge : σ.challenge = τ.challenge := hσ.challenge_eq.trans hτ.challenge_eq.symm
  have hgiven : ∀ x, given x → x.value σ = x.value τ := by
    intro x hx
    cases x with
    | constant s => rfl
    | input c =>
      have hc := h.not_mem_of_given hg hx
      exact (hσ.cell_eq c hc).trans (hτ.cell_eq c hc).symm
    | challenge i => exact congrFun hchallenge i
  ext1
  · funext c
    by_cases hc : c ∈ rules.map Rule.column
    · obtain ⟨rule, hr, rfl⟩ := List.mem_map.1 hc
      exact h.determines hσ.holds hτ.holds hgiven rule hr
    · exact (hσ.cell_eq c hc).trans (hτ.cell_eq c hc).symm
  · exact hchallenge

/-- Columns are filled in the order of the rules: each by the value of its expression under the
columns before it. -/
theorem exists_completes (h : Derived a limits given rules) (hg : ∀ x, given x → limits.Admits x)
    (ρ : Assignment) :
    ∃ σ, Completes a rules ρ σ ∧ (ρ.MainIsBase (rules.map Rule.column) → σ.MainIsBase []) := by
  induction h generalizing ρ with
  | nil => exact ⟨ρ, ⟨fun _ _ => rfl, rfl, by simp⟩, fun hb => hb⟩
  | @snoc rules last e hr hd hc _ hv ih =>
    -- the value that the last column has so far does not matter
    obtain ⟨σ, hσ, hbase⟩ := ih (ρ.set last.column 0)
    have hkeep : ∀ f : Expr, (∀ x ∈ f.vars, Known given rules x) →
        f.value (σ.set last.column (e.value σ)) = f.value σ := by
      intro f hf
      refine Expr.value_congr fun x hx => ?_
      have hne := hr.ne_column_of_known hg e (hf x hx)
      cases x with
      | constant s => rfl
      | input c => exact Assignment.cell_set_of_ne fun h => hne (by rw [h, hc])
      | challenge i => rfl
    refine ⟨σ.set last.column (e.value σ), ⟨fun c hm => ?_, hσ.challenge_eq, fun rule hm => ?_⟩,
      fun hb c ht _ => ?_⟩
    · rw [List.map_append, List.mem_append, not_or, List.map_singleton, List.mem_singleton] at hm
      rw [Assignment.cell_set_of_ne hm.2, hσ.cell_eq c hm.1, Assignment.cell_set_of_ne hm.2]
    · rcases List.mem_append.1 hm with hm | hm
      · obtain ⟨f, hf, -, hk⟩ := hr.exists_defines hm
        have hne : rule.column ≠ last.column := hc ▸ hr.column_ne e hm
        rw [hf.holds_iff, hkeep f hk, Assignment.cell_set_of_ne hne]
        exact hf.holds_iff.1 (hσ.holds rule hm)
      · obtain rfl := List.mem_singleton.1 hm
        rw [hd.holds_iff, hkeep e hv, Assignment.cell_set_self]
    · have hσb : σ.MainIsBase [] := hbase fun d hd hm => by
        by_cases hl : d = last.column
        · rw [hl, Assignment.cell_set_self]
          exact ⟨0, rfl⟩
        · rw [Assignment.cell_set_of_ne hl]
          exact hb d hd (by simp [hm, hl])
      by_cases hl : c = last.column
      · rw [hl, Assignment.cell_set_self]
        have heb : e.isBase = true := by
          rw [hl, hc] at ht
          exact Expr.isBase_of_table ht
        exact Expr.value_isBase heb fun d hd _ => hσb d hd (by simp)
      · rw [Assignment.cell_set_of_ne hl]
        exact hσb c ht (by simp)

end Derived

/-- The lowered constraints and rules, in the arena `b`, say what the constraints `cs` say. -/
structure Lowered.Faithful (limits : Limits) (cs : List Circuit) (b : Arena)
    (low : Lowered) : Prop where
  length_eq : low.constraints.length = cs.length
  arena_eq : ∀ d ∈ low.constraints, d.arena = b
  /-- New columns stand in the current row, after those in use. -/
  column_fresh : ∀ rule ∈ low.rules.toList, rule.column.row = .current ∧
    limits.columns rule.column.table ≤ rule.column.column
  column_nodup : (low.rules.toList.map Rule.column).Nodup
  /-- Where the rules hold, every lowered constraint has the value of the constraint at its
  position. -/
  values_eq : ∀ ρ, (∀ rule ∈ low.rules.toList, rule.Holds b ρ) →
    low.constraints.map (fun d => d.expr.value ρ) = cs.map fun c => c.expr.value ρ
  /-- Every assignment to the columns in use can be completed in exactly one way. -/
  existsUnique_completes : ∀ ρ, ∃! σ, Completes b low.rules.toList ρ σ
  /-- New main columns hold base elements if those in use do. -/
  mainIsBase : ∀ ρ σ, Completes b low.rules.toList ρ σ →
    ρ.MainIsBase (low.rules.toList.map Rule.column) → σ.MainIsBase []

/-- Lowering a bucket whose columns are within the limits succeeds, and keeps what the bucket
says. -/
theorem Lower.bucket_faithful (limits : Limits) (a : Arena) (cs : List Circuit)
    (harena : ∀ c ∈ cs, c.arena = a) (hcolumns : ∀ c ∈ cs, ∀ x ∈ c.expr.vars, limits.Admits x) :
    ∃ low b, Lower.bucket limits cs a = .ok low b ∧ low.Faithful limits cs b := by
  obtain ⟨low, b, hrun, -, hs⟩ := Lower.bucket_spec limits harena
  have hg : ∀ x, Occurs cs x → limits.Admits x := fun x ⟨c, hc, hx⟩ => hcolumns c hc x hx
  refine ⟨low, b, hrun, hs.constraints.length_eq.symm, fun d hd => ?_, fun rule hr => ?_,
    hs.derived.nodup, fun ρ hρ => ?_, fun ρ => ?_, fun ρ σ hσ => ?_⟩
  · obtain ⟨c, -, hcd⟩ := forall₂_exists_left hs.constraints hd
    exact hcd.arena_eq
  · obtain ⟨h₁, h₂, -⟩ := hs.derived.column_bounds hr
    exact ⟨h₁, h₂⟩
  · have hvalues := hs.constraints.imp fun c d hcd => hcd.value_eq ρ hρ
    rw [← List.forall₂_eq_eq_eq, List.forall₂_map_left_iff, List.forall₂_map_right_iff]
    exact hvalues.flip
  · obtain ⟨σ, hσ, -⟩ := hs.derived.exists_completes hg ρ
    exact ⟨σ, hσ, fun τ hτ => hs.derived.completes_unique hg hτ hσ⟩
  · obtain ⟨τ, hτ, hb⟩ := hs.derived.exists_completes hg ρ
    rw [hs.derived.completes_unique hg hσ hτ]
    exact hb

open Build in
/-- A system of two transition constraints: a cube, and a product over both rows and a challenge
less that cube. -/
def ConstraintSystem.cubes : ConstraintSystem := .ofBuild ⟨1, 0, 1⟩ do
  let x ← currentMain 0
  let y ← nextMain 0
  let c ← challenge 0
  let cube ← times (← times x x) x
  let mixed ← times (← times y c) y
  return ⟨[], [], [cube, ← difference mixed cube], []⟩

/-- The transition constraints of `cubes`, which take one new column of each table. -/
theorem Lower.bucket_faithful_cubes :
    let cs := ConstraintSystem.cubes.circuits .transition
    let limits : Limits := ⟨2, 1, 0, by decide⟩
    maxDegree cs = 3 ∧ (∀ c ∈ cs, ∀ x ∈ c.expr.vars, limits.Admits x) ∧
      ∃ low b, Lower.bucket limits cs ConstraintSystem.cubes.arena = .ok low b ∧
        low.rules.countP Rule.isMain = 1 ∧ (low.rules.countP fun rule => !rule.isMain) = 1 ∧
        low.Faithful limits cs b := by
  intro cs limits
  have hcolumns : ∀ c ∈ cs, ∀ x ∈ c.expr.vars, limits.Admits x := by decide +kernel
  have harena : ∀ c ∈ cs, c.arena = ConstraintSystem.cubes.arena := by
    intro c hc
    obtain ⟨h, -, hh⟩ := List.mem_filterMap.1 hc
    exact (Arena.circuit?_eq_some.1 hh).1
  obtain ⟨low, b, hrun, hmain, haux⟩ : ∃ low b,
      Lower.bucket limits cs ConstraintSystem.cubes.arena = .ok low b ∧
      low.rules.countP Rule.isMain = 1 ∧ (low.rules.countP fun rule => !rule.isMain) = 1 :=
    exists_ok (by decide +kernel)
  obtain ⟨_, _, hrun', hfaithful⟩ := Lower.bucket_faithful limits _ cs harena hcolumns
  rw [hrun] at hrun'
  cases hrun'
  exact ⟨by decide +kernel, hcolumns, low, b, hrun, hmain, haux, hfaithful⟩

end AirCompiler
