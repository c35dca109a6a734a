import AirCompiler.Proofs.System.Products
import Mathlib.Data.Rat.Floor
import Mathlib.Algebra.BigOperators.Ring.Finset

/-!
# Columns for a sum of products

Lowering a sum of products of columns cuts the products at fixed lengths (`IsCut`, `cuts`): the
first part that is replaced by a column has the target degree, and so has every further part
together with the column before it. Products that start alike are cut together.

* `Cutting`: the state of lowering once some parts were replaced. A round replaces one more
  (`Cutting.round`), and when the target degree is met there is nothing left to cut
  (`Cutting.mem_of_maxDegree_le`).
* `Lower.bucket_sumOfProducts`: so there is one rule for every cut, and in products of distinct
  columns as many as their lengths say.
-/

namespace AirCompiler

/-! ## Cuts -/

/-- The lengths at which a list is cut: a first part of the target degree, and then parts that have
the target degree together with the column for what is before them. -/
def IsCut (target n : Nat) : Prop := target ≤ n ∧ (target - 1) ∣ (n - target)

instance (target n : Nat) : Decidable (IsCut target n) := inferInstanceAs (Decidable (_ ∧ _))

/-- The first parts of a list that are replaced by columns, from the shortest on. -/
def cuts (target : Nat) (l : List Int) : List (List Int) :=
  ((List.range l.length).filter fun n => IsCut target n).map fun n => l.take n

theorem mem_cuts {target : Nat} {l p : List Int} :
    p ∈ cuts target l ↔ p <+: l ∧ p.length < l.length ∧ IsCut target p.length := by
  simp only [cuts, List.mem_map, List.mem_filter, List.mem_range, decide_eq_true_eq]
  constructor
  · rintro ⟨n, ⟨hlt, hcut⟩, rfl⟩
    rw [List.length_take_of_le (Nat.le_of_lt hlt)]
    exact ⟨⟨_, List.take_append_drop n l⟩, hlt, hcut⟩
  · rintro ⟨hpre, hlt, hcut⟩
    exact ⟨p.length, ⟨hlt, hcut⟩, (List.prefix_iff_eq_take.1 hpre).symm⟩

theorem IsCut.add_le_of_lt {target m n : Nat} (hm : IsCut target m) (hn : IsCut target n)
    (h : m < n) : m + (target - 1) ≤ n := by
  have hdvd : (target - 1) ∣ (n - target) - (m - target) := Nat.dvd_sub hn.2 hm.2
  have := Nat.le_of_dvd (by have := hm.1; omega) hdvd
  have := hm.1
  omega

theorem IsCut.add {target n : Nat} (hn : IsCut target n) : IsCut target (n + (target - 1)) := by
  obtain ⟨hle, hdvd⟩ := hn
  refine ⟨by omega, ?_⟩
  rw [show n + (target - 1) - target = (n - target) + (target - 1) by omega]
  exact Nat.dvd_add hdvd (Nat.dvd_refl _)

/-- What stands for the first part of a list: nothing, or the column that was introduced for it. -/
def Limits.head (limits : Limits) (done : List (List Int)) (q : List Int) : Leaf :=
  if q = [] then .constant (.base 1) else .mainColumn (limits.mainColumns + done.idxOf q)

/-- The product of a list once its longest part among the finished ones was replaced by its
column. -/
def Remains (limits : Limits) (done : List (List Int)) (l : List Int) (e : Expr) : Prop :=
  ∃ q rest, l = q ++ rest ∧ (q = [] ∨ q ∈ done) ∧ IsProduct (limits.head done q) rest e ∧
    ∀ p ∈ done, p <+: l → p.length ≤ q.length

namespace Limits

variable {limits : Limits} {done : List (List Int)} {p q : List Int}

theorem head_of_ne (hq : q ≠ []) :
    limits.head done q = .mainColumn (limits.mainColumns + done.idxOf q) := if_neg hq

theorem head_ne {x : Int} (hx : x < limits.mainColumns) : limits.head done q ≠ .mainColumn x := by
  unfold head
  split
  · simp [Leaf.mainColumn]
  · simp only [Leaf.mainColumn, ne_eq, Leaf.input.injEq, Cell.mk.injEq, true_and]
    omega

theorem degree_head_nil : (limits.head done []).degree = 0 := rfl

theorem degree_head (hq : q ≠ []) : (limits.head done q).degree = 1 := by rw [head_of_ne hq]; rfl

theorem degree_head_le (limits : Limits) (done : List (List Int)) (q : List Int) :
    (limits.head done q).degree ≤ 1 := by
  unfold head
  split
  · exact Nat.zero_le 1
  · exact Nat.le_refl 1

theorem isBase_head : (limits.head done q).isBase = true := by
  unfold head
  split <;> rfl

theorem head_injective (hp : p = [] ∨ p ∈ done) (h : limits.head done p = limits.head done q) :
    p = q := by
  by_cases hp₀ : p = []
  · by_cases hq₀ : q = []
    · rw [hp₀, hq₀]
    · rw [hp₀, head_of_ne hq₀] at h
      cases h
  · by_cases hq₀ : q = []
    · rw [hq₀, head_of_ne hp₀] at h
      cases h
    · rw [head_of_ne hp₀, head_of_ne hq₀, Leaf.mainColumn, Leaf.mainColumn,
        Leaf.input.injEq, Cell.mk.injEq] at h
      exact (List.idxOf_inj (hp.resolve_left hp₀)).1 (by omega)

theorem head_append (hq : q = [] ∨ q ∈ done) :
    limits.head (done ++ [p]) q = limits.head done q := by
  unfold head
  split
  · rfl
  · rename_i hne
    rw [List.idxOf_append_of_mem (hq.resolve_left hne)]

theorem head_append_self (hp : p ∉ done) (hne : p ≠ []) :
    limits.head (done ++ [p]) p = .mainColumn (limits.mainColumns + done.length) := by
  rw [head_of_ne hne, List.idxOf_append_of_notMem hp, List.idxOf_cons_self, Nat.add_zero]

end Limits

/-- The part to replace next: it follows what is finished of some list, and together with the column
for that has the target degree. -/
structure Part (limits : Limits) (ls done : List (List Int)) (q ps : List Int)
    (t : Expr) : Prop where
  finished : q = [] ∨ q ∈ done
  exists_list : ∃ l ∈ ls, q ++ ps <+: l ∧ (q ++ ps).length < l.length ∧
    ∀ p ∈ done, p <+: l → p.length ≤ q.length
  length_eq : ps.length = limits.target.toNat - (limits.head done q).degree
  product : IsProduct (limits.head done q) ps t

namespace Part

variable {limits : Limits} {ls done : List (List Int)} {q ps : List Int} {t : Expr}

theorem degree_eq (h : Part limits ls done q ps t) : (t.degree : Int) = limits.target := by
  have hdegree := h.product.degree_eq
  have hlength := h.length_eq
  have hhead := limits.degree_head_le done q
  have htarget := limits.two_le_target
  omega

theorem isBase (h : Part limits ls done q ps t) : t.isBase = true :=
  h.product.isBase_eq.trans Limits.isBase_head

theorem ne_nil (h : Part limits ls done q ps t) : ps ≠ [] := by
  rintro rfl
  have hlength := h.length_eq
  have hhead := limits.degree_head_le done q
  have htarget := limits.two_le_target
  rw [List.length_nil] at hlength
  omega

theorem length_lt (h : Part limits ls done q ps t) : q.length < (q ++ ps).length := by
  have := List.length_pos_iff.2 h.ne_nil
  rw [List.length_append]
  omega

theorem notMem (h : Part limits ls done q ps t) : q ++ ps ∉ done := by
  obtain ⟨l, -, hl, -, hmax⟩ := h.exists_list
  exact fun hm => absurd (hmax _ hm hl) (Nat.not_le.2 h.length_lt)

end Part

/-- What remains of a list after one more part was replaced. -/
theorem Remains.append {limits : Limits} {ls done : List (List Int)}
    {l' q ps : List Int} {t e e' : Expr} (h : Remains limits done l' e)
    (hpart : Part limits ls done q ps t) (hcolumns : ∀ l ∈ ls, ∀ x ∈ l, x < limits.mainColumns)
    (hs : Substituted t (.leaf (.mainColumn (limits.mainColumns + done.length))) e e') :
    Remains limits (done ++ [q ++ ps]) l' e' := by
  obtain ⟨l, hmem, hl, -, hmax⟩ := hpart.exists_list
  have hps : ∀ x ∈ ps, x < limits.mainColumns := fun x hx =>
    hcolumns l hmem x (hl.subset (List.mem_append_right q hx))
  obtain ⟨q', rest, rfl, hq', hp, hmax'⟩ := h
  rcases hp.substituted hpart.product hpart.ne_nil (fun x hx => Limits.head_ne (hps x hx)) hs with
    ⟨rest', hhead, rfl, hp'⟩ | ⟨hne, hp'⟩
  · obtain rfl := Limits.head_injective hq' hhead
    refine ⟨q' ++ ps, rest', (List.append_assoc _ _ _).symm, .inr (by simp), ?_,
      fun p hp hpre => ?_⟩
    · rwa [Limits.head_append_self hpart.notMem (by simp [hpart.ne_nil])]
    · rcases List.mem_append.1 hp with hp | hp
      · exact Nat.le_of_lt (Nat.lt_of_le_of_lt (hmax' p hp hpre) hpart.length_lt)
      · rw [List.mem_singleton.1 hp]
  · refine ⟨q', rest, rfl, hq'.imp_right (List.mem_append_left _), ?_, fun p hp hpre => ?_⟩
    · rwa [Limits.head_append hq']
    · rcases List.mem_append.1 hp with hp | hp
      · exact hmax' p hp hpre
      · obtain rfl := List.mem_singleton.1 hp
        -- were the new part longer than what was replaced here, both would start with the same
        -- finished part
        by_contra hlt
        have hq'p : q' <+: q ++ ps :=
          List.prefix_of_prefix_length_le (List.prefix_append q' rest) hpre (by omega)
        have hle : q.length ≤ q'.length := by
          rcases hpart.finished with rfl | hq
          · exact Nat.zero_le _
          · exact hmax' q hq ((List.prefix_append q ps).trans hpre)
        have hle' : q'.length ≤ q.length := by
          rcases hq' with rfl | hq'
          · exact Nat.zero_le _
          · exact hmax q' hq' (hq'p.trans hl)
        have heq : q' = q :=
          (List.prefix_of_prefix_length_le hq'p (List.prefix_append q ps) hle').eq_of_length
            (by omega)
        subst heq
        exact hne ⟨rfl, (List.prefix_append_right_inj q').1 hpre⟩

/-! ## Rounds -/

/-- The constraints after a round, with the column in the place of every occurrence of the chosen
tree. -/
theorem Lower.Replaced.substituted {limits : Limits} {a b : Arena} {low low' : Lowered}
    {chosen : Circuit} {rule : Rule} (h : Replaced limits low a chosen rule low' b)
    (hlow : ∀ d ∈ low.constraints, d.arena = a) (harena : chosen.arena = a) :
    List.Forall₂
      (fun d d' => d'.arena = b ∧
        Substituted chosen.expr (.leaf (.input rule.column)) d.expr d'.expr)
      low.constraints low'.constraints := by
  obtain ⟨v, done, hv, hdone, hds⟩ := h.rebuilt
  refine ((List.forall₂_and_left _ _).2 ⟨hlow, hds⟩).imp ?_
  rintro d d' ⟨hd, hd'a, x, hx, hd'i⟩
  obtain ⟨e, e', he, he', hs⟩ :=
    hdone.substituted (h.arena.unfolds (harena ▸ chosen.unfolds_expr)) (.leaf hv) hx
  obtain rfl : d.expr = e := Circuit.expr_of_unfolds (by
    rw [hd]
    exact h.arena.unfolds_of_lt (hd ▸ d.isLt) he)
  obtain rfl : d'.expr = e' := Circuit.expr_of_unfolds (by rw [hd'a, hd'i]; exact he')
  exact ⟨hd'a, hs⟩

theorem factor?_of_pickFactor {target : Int} {c d : Circuit} (h : pickFactor target [c] = .ok d) :
    c.factor? target = some d := by
  unfold pickFactor at h
  split at h
  · cases h
  · rename_i c' hf
    obtain rfl := List.mem_singleton.1 (List.mem_of_find?_eq_some hf)
    split at h
    · rename_i d' hd
      cases h
      exact hd
    · cases h

/-- The state of lowering a sum of products when the parts `done` of its lists were replaced by
columns, in this order. -/
structure Cutting (limits : Limits) (ls : List (List Int)) (a : Arena) (low : Lowered)
    (done : List (List Int)) : Prop where
  constraint : ∃ c es, low.constraints = [c] ∧ c.arena = a ∧ IsSum es c.expr ∧
    List.Forall₂ (Remains limits done) ls es
  size_rules : low.rules.size = done.length
  rules : ∀ rule ∈ low.rules.toList, rule.column.table = .main ∧
    ∃ e, a.Unfolds rule.expression e ∧ (e.degree : Int) = limits.target
  nodup : done.Nodup
  mem_cuts : ∀ p ∈ done, ∃ l ∈ ls, p ∈ cuts limits.target.toNat l
  /-- The parts of a list are replaced from the shortest on. -/
  closed : ∀ p ∈ done, ∀ q, q <+: p → IsCut limits.target.toNat q.length → q ∈ done

namespace Cutting

variable {limits : Limits} {ls : List (List Int)} {a : Arena} {low : Lowered}
  {done : List (List Int)}

theorem isCut (h : Cutting limits ls a low done) {p : List Int} (hp : p ∈ done) :
    IsCut limits.target.toNat p.length := by
  obtain ⟨l, -, hl⟩ := h.mem_cuts p hp
  exact (AirCompiler.mem_cuts.1 hl).2.2

theorem ne_nil (h : Cutting limits ls a low done) {p : List Int} (hp : p ∈ done) : p ≠ [] := by
  rintro rfl
  have := (h.isCut hp).1
  have := limits.two_le_target
  simp only [List.length_nil] at *
  omega

/-- A cut is finished if the next one after some finished part would be longer. -/
theorem mem_of_length_lt (h : Cutting limits ls a low done) {l p q : List Int}
    (hq : q = [] ∨ q ∈ done) (hql : q <+: l) (hpl : p <+: l)
    (hp : IsCut limits.target.toNat p.length)
    (hlt : p.length < q.length + (limits.target.toNat - (limits.head done q).degree)) :
    p ∈ done := by
  rcases hq with rfl | hq
  · have := hp.1
    rw [Limits.degree_head_nil, List.length_nil] at hlt
    omega
  · rw [Limits.degree_head (h.ne_nil hq)] at hlt
    have hle : p.length ≤ q.length := by
      by_contra hle
      have := (h.isCut hq).add_le_of_lt hp (by omega)
      omega
    exact h.closed q hq p (List.prefix_of_prefix_length_le hpl hql hle) hp

/-- Above the target degree the next part to replace is that of some list. -/
theorem exists_part (h : Cutting limits ls a low done)
    (hex : ¬ maxDegree low.constraints ≤ limits.target) :
    ∃ chosen q ps, pickFactor limits.target low.constraints = .ok chosen ∧ chosen.arena = a ∧
      Part limits ls done q ps chosen.expr := by
  have htarget := limits.two_le_target
  obtain ⟨c, es, hcs, rfl, hsum, hes⟩ := h.constraint
  obtain ⟨chosen, c', hc', hpick, harena, -⟩ := pickFactor_spec htarget hex
  rw [hcs] at hc' hpick
  obtain rfl := List.mem_singleton.1 hc'
  have hdegree : limits.target < c'.expr.degree := by
    rw [hcs, maxDegree_le_iff (by omega)] at hex
    simpa [c'.degree_eq] using hex
  have hfactor : c'.expr.factor? limits.target = some chosen.expr := by
    rw [← c'.map_expr_factor?, factor?_of_pickFactor hpick]
    rfl
  obtain ⟨e, he, hed, hef⟩ := hsum.exists_factor? (by omega) hdegree
  obtain ⟨l, hl, q, rest, rfl, hq, hp, hmax⟩ := forall₂_exists_left hes he
  have htoNat : limits.target = limits.target.toNat := by omega
  have hlt : limits.target.toNat < e.degree := by omega
  rw [htoNat] at hef
  have hhead := limits.degree_head_le done q
  obtain ⟨t, hf, ht⟩ := hp.exists_factor? (by omega) hhead hlt
  obtain rfl : chosen.expr = t := by
    rw [htoNat, hef, hf] at hfactor
    exact (Option.some.inj hfactor).symm
  have hrest := hp.degree_eq
  refine ⟨chosen, q, _, hcs ▸ hpick, harena, hq, ⟨_, hl, ?_, ?_, hmax⟩, ?_, ht⟩
  · exact (List.prefix_append_right_inj q).2 ⟨_, List.take_append_drop _ rest⟩
  · rw [List.length_append, List.length_append, List.length_take]
    omega
  · rw [List.length_take]
    omega

theorem isCut_part (h : Cutting limits ls a low done) {q ps : List Int} {t : Expr}
    (hpart : Part limits ls done q ps t) : IsCut limits.target.toNat (q ++ ps).length := by
  have hlength := hpart.length_eq
  rcases hpart.finished with rfl | hq
  · rw [Limits.degree_head_nil, Nat.sub_zero] at hlength
    rw [List.nil_append, hlength]
    exact ⟨Nat.le_refl _, by simp⟩
  · rw [Limits.degree_head (h.ne_nil hq)] at hlength
    rw [List.length_append, hlength]
    exact (h.isCut hq).add

/-- The finished parts, with the part that is replaced next, are cuts, and every cut before one of
them is among them. -/
theorem closed_append (h : Cutting limits ls a low done) {q ps : List Int} {t : Expr}
    (hpart : Part limits ls done q ps t) {p r : List Int} (hp : p ∈ done ++ [q ++ ps])
    (hrp : r <+: p) (hr : IsCut limits.target.toNat r.length) : r ∈ done ++ [q ++ ps] := by
  rcases List.mem_append.1 hp with hp | hp
  · exact List.mem_append_left _ (h.closed p hp r hrp hr)
  · obtain rfl := List.mem_singleton.1 hp
    by_cases hlength : r.length = (q ++ ps).length
    · rw [hrp.eq_of_length hlength]
      simp
    · have hle := hrp.length_le
      have hps := hpart.length_eq
      rw [List.length_append] at hlength hle
      exact List.mem_append_left _
        (h.mem_of_length_lt hpart.finished (List.prefix_append q ps) hrp hr (by omega))

/-- A round replaces the next part by the next main column. -/
theorem round (h : Cutting limits ls a low done)
    (hcolumns : ∀ l ∈ ls, ∀ x ∈ l, x < limits.mainColumns)
    (hex : ¬ maxDegree low.constraints ≤ limits.target) :
    ∃ low' b p, Lower.round limits low a = .ok low' b ∧ Cutting limits ls b low' (done ++ [p]) := by
  obtain ⟨chosen, q, ps, hpick, harena, hpart⟩ := h.exists_part hex
  obtain ⟨c, es, hcs, hca, hsum, hes⟩ := h.constraint
  have hlow : ∀ d ∈ low.constraints, d.arena = a := by simp [hcs, hca]
  have hdegree := hpart.degree_eq
  have htarget := limits.two_le_target
  obtain ⟨rule, low', b, hrun, hr⟩ := Lower.exists_replaced hlow hpick harena (by omega) (by omega)
  -- all rules so far are for main columns, so the next main column is the one after as many columns
  -- as there are parts
  have hcolumn : rule.column = ⟨.current, .main, limits.mainColumns + done.length⟩ := by
    have hcount : low.rules.toList.countP (fun rule => rule.column.table = .main) =
        done.length := by
      rw [List.countP_eq_length.2 fun rule hm => by simpa using (h.rules rule hm).1,
        Array.length_toList, h.size_rules]
    rw [hr.column_eq, Limits.column, Expr.table, if_pos hpart.isBase, hcount, Limits.columns]
  have hds := hr.substituted hlow harena
  rw [hcs, List.forall₂_cons_left_iff] at hds
  obtain ⟨c', ds, ⟨hc', hs⟩, hnil, hds⟩ := hds
  obtain rfl := List.forall₂_nil_left_iff.1 hnil
  obtain ⟨l, r, hchosen⟩ := hpart.product.exists_operands hpart.ne_nil
  rw [hcolumn, hchosen] at hs
  obtain ⟨es', hss, hsum'⟩ := Accumulates.substituted hsum hs
  rw [← hchosen] at hss
  have hrules : low'.rules.toList = low.rules.toList ++ [rule] := by
    rw [hr.rules_eq, Array.toList_push]
  refine ⟨low', b, q ++ ps, hrun, ⟨c', es', hds, hc', hsum', ?_⟩, ?_, ?_, ?_, ?_,
    fun p hp r => h.closed_append hpart hp⟩
  · exact forall₂_comp hes hss fun l' e e' hrem hse => hrem.append hpart hcolumns hse
  · rw [hr.rules_eq, Array.size_push, h.size_rules, List.length_append]
    rfl
  · intro rule' hm
    rw [hrules] at hm
    rcases List.mem_append.1 hm with hm | hm
    · obtain ⟨htable, e, he, hed⟩ := h.rules rule' hm
      exact ⟨htable, e, hr.arena.unfolds he, hed⟩
    · obtain rfl := List.mem_singleton.1 hm
      exact ⟨by rw [hcolumn], chosen.expr, hr.defines.expression, hdegree⟩
  · exact List.nodup_append.2 ⟨h.nodup, List.nodup_singleton _, fun p hp p' hp' heq =>
      hpart.notMem (List.mem_singleton.1 hp' ▸ heq ▸ hp)⟩
  · intro p hp
    rcases List.mem_append.1 hp with hp | hp
    · exact h.mem_cuts p hp
    · obtain rfl := List.mem_singleton.1 hp
      obtain ⟨l', hl', hpre, hlt, -⟩ := hpart.exists_list
      exact ⟨l', hl', AirCompiler.mem_cuts.2 ⟨hpre, hlt, h.isCut_part hpart⟩⟩

/-- Rounds keep the state, whatever was replaced in them. -/
theorem rounds (n : Nat) (h : Cutting limits ls a low done)
    (hcolumns : ∀ l ∈ ls, ∀ x ∈ l, x < limits.mainColumns) :
    ∃ low' b done', Lower.rounds limits n low a = .ok low' b ∧ Cutting limits ls b low' done' := by
  induction n generalizing a low done with
  | zero => exact ⟨low, a, done, rfl, h⟩
  | succ n ih =>
    rw [Lower.rounds]
    split
    · exact ⟨low, a, done, rfl, h⟩
    · rename_i hex
      obtain ⟨low₁, a₁, p, hrun, h₁⟩ := h.round hcolumns hex
      obtain ⟨low₂, a₂, done₂, hrest, h₂⟩ := ih h₁
      exact ⟨low₂, a₂, done₂, by rw [Build.bind_of_ok hrun, hrest], h₂⟩

/-- Once no constraint exceeds the target, all cuts are finished. -/
theorem mem_of_maxDegree_le (h : Cutting limits ls a low done)
    (hle : maxDegree low.constraints ≤ limits.target) {l p : List Int} (hl : l ∈ ls)
    (hp : p ∈ cuts limits.target.toNat l) : p ∈ done := by
  have htarget := limits.two_le_target
  obtain ⟨c, es, hcs, -, hsum, hes⟩ := h.constraint
  obtain ⟨e, he, q, rest, rfl, hq, hprod, -⟩ := forall₂_exists_left hes.flip hl
  obtain ⟨hpre, hlt, hcut⟩ := AirCompiler.mem_cuts.1 hp
  have hdegree : (c.expr.degree : Int) ≤ limits.target := by
    rw [hcs, maxDegree_le_iff (by omega)] at hle
    simpa [c.degree_eq] using hle
  have hsummand := hsum.degree_le he
  have hrest := hprod.degree_eq
  rw [List.length_append] at hlt
  exact h.mem_of_length_lt hq (List.prefix_append q rest) hpre hcut (by omega)

end Cutting

/-! ## Numbers of cuts -/

section

variable {target : Nat}

theorem length_filter_isCut (ht : 2 ≤ target) (n : Nat) :
    ((List.range n).filter fun m => IsCut target m).length =
      (n - target + (target - 2)) / (target - 1) := by
  induction n with
  | zero =>
    rw [Nat.div_eq_of_lt (by omega)]
    rfl
  | succ n ih =>
    rw [List.range_succ, List.filter_append, List.length_append, ih]
    by_cases hle : target ≤ n
    · have hdvd : (target - 1) ∣ n - target + (target - 2) + 1 ↔ IsCut target n := by
        rw [show n - target + (target - 2) + 1 = n - target + (target - 1) by omega,
          Nat.dvd_add_left (Nat.dvd_refl _)]
        exact ⟨fun h => ⟨hle, h⟩, And.right⟩
      rw [show n + 1 - target + (target - 2) = n - target + (target - 2) + 1 by omega, Nat.succ_div]
      by_cases hcut : IsCut target n
      · rw [if_pos (hdvd.2 hcut)]
        simp [hcut]
      · rw [if_neg (fun h => hcut (hdvd.1 h))]
        simp [hcut]
    · have hcut : ¬ IsCut target n := fun h => hle h.1
      rw [show n - target = 0 by omega, show n + 1 - target = 0 by omega]
      simp [hcut]

/-- The number of cuts of a list. -/
theorem length_cuts (ht : 2 ≤ target) (l : List Int) :
    (cuts target l).length = (l.length - target + (target - 2)) / (target - 1) := by
  rw [cuts, List.length_map, length_filter_isCut ht]

/-- A quotient rounded up. -/
theorem ceil_div_eq (x : Nat) {k : Nat} (hk : 0 < k) :
    ⌈(x : ℚ) / k⌉ = ((x + (k - 1)) / k : Nat) := by
  have hle := Nat.div_mul_le_self (x + (k - 1)) k
  have hlt := Nat.lt_div_mul_add (a := x + (k - 1)) hk
  have hk' : (0 : ℚ) < k := by exact_mod_cast hk
  refine Int.ceil_eq_iff.2 ⟨?_, ?_⟩
  · rw [lt_div_iff₀ hk', sub_mul, sub_lt_iff_lt_add]
    have : (x + (k - 1)) / k * k < x + 1 * k := by omega
    exact_mod_cast this
  · rw [div_le_iff₀ hk']
    have : x ≤ (x + (k - 1)) / k * k := by omega
    exact_mod_cast this

/-- The same number, as the length beyond the target over what a cut takes away, rounded up. -/
theorem length_cuts_eq_ceil (ht : 2 ≤ target) (l : List Int) :
    ((cuts target l).length : Int) = max 0 ⌈((l.length : ℚ) - target) / (target - 1)⌉ := by
  rw [length_cuts ht]
  have hstep : (target : ℚ) - 1 = (target - 1 : Nat) := by
    rw [Nat.cast_sub (by omega), Nat.cast_one]
  rw [hstep]
  by_cases hle : l.length ≤ target
  · have hneg : (l.length : ℚ) - target ≤ 0 := sub_nonpos.2 (by exact_mod_cast hle)
    rw [show l.length - target = 0 by omega, Nat.zero_add, Nat.div_eq_of_lt (by omega),
      max_eq_left (Int.ceil_nonpos.2 (div_nonpos_of_nonpos_of_nonneg hneg (Nat.cast_nonneg _)))]
    rfl
  · rw [← Nat.cast_sub (by omega), ceil_div_eq _ (by omega), max_eq_right (Int.natCast_nonneg _),
      show target - 1 - 1 = target - 2 by omega]

/-- The cuts of one list have different lengths. -/
theorem nodup_cuts (target : Nat) (l : List Int) : (cuts target l).Nodup := by
  refine (List.nodup_range.filter _).map_on fun m hm n hn heq => ?_
  have hm := List.mem_range.1 (List.mem_of_mem_filter hm)
  have hn := List.mem_range.1 (List.mem_of_mem_filter hn)
  have := congrArg List.length heq
  rwa [List.length_take_of_le (Nat.le_of_lt hm), List.length_take_of_le (Nat.le_of_lt hn)] at this

/-- Lists without common columns have no cut in common. -/
theorem nodup_flatMap_cuts (ht : 2 ≤ target) {ls : List (List Int)} (h : ls.flatten.Nodup) :
    (ls.flatMap (cuts target)).Nodup := by
  refine List.nodup_flatMap.2 ⟨fun l _ => nodup_cuts target l, (List.nodup_flatten.1 h).2.imp ?_⟩
  intro l l' hdisjoint p hp hp'
  obtain ⟨hpre, -, hcut⟩ := mem_cuts.1 hp
  obtain ⟨hpre', -, -⟩ := mem_cuts.1 hp'
  have hlength := hcut.1
  obtain ⟨x, hx⟩ := List.exists_mem_of_length_pos (show 0 < p.length by omega)
  exact hdisjoint (hpre.subset hx) (hpre'.subset hx)

end

/-! ## Lowering a sum of products -/

theorem Cutting.start {limits : Limits} {ls : List (List Int)} {c : Circuit} {es : List Expr}
    (hsum : IsSum es c.expr) (hes : List.Forall₂ (IsProduct (.constant (.base 1))) ls es) :
    Cutting limits ls c.arena ⟨[c], #[]⟩ [] where
  constraint := ⟨c, es, rfl, rfl, hsum, hes.imp fun l _ hp => ⟨[], l, rfl, .inl rfl, hp, by simp⟩⟩
  size_rules := rfl
  rules := by simp
  nodup := .nil
  mem_cuts := by simp
  closed := by simp

/-- Lowering a sum of products of main columns introduces main columns only, each for a factor of
exactly the target degree. There is one for every cut of a product. If all columns of all products
are different, a product of `n` columns takes as many of them as `n` exceeds the target degree by,
over one less than the target degree, rounded up. -/
theorem Lower.bucket_sumOfProducts (limits : Limits) (a : Arena) (ls : List (List Int))
    (hcolumns : ∀ l ∈ ls, ∀ x ∈ l, x < limits.mainColumns) :
    ∃ k b c low b', Build.sumOfProducts ls a = .ok k b ∧ b.circuit? k = some c ∧ bucket limits
      [c] b = .ok low b' ∧ (∀ rule ∈ low.rules, rule.isMain = true ∧
        ∃ d, b'.circuit? rule.expression = some d ∧ (d.degree : Int) = limits.target) ∧
      low.rules.size = (ls.flatMap (cuts limits.target.toNat)).dedup.length ∧
      (ls.flatten.Nodup → (low.rules.size : Int) =
        (ls.map fun l => max 0 ⌈((l.length : ℚ) - limits.target) / (limits.target - 1)⌉).sum) := by
  have htarget := limits.two_le_target
  obtain ⟨k, b, hbuild, -, e, es, he, hsum, hes⟩ := Build.sumOfProducts_spec a ls
  obtain ⟨c, hc, rfl⟩ := he.exists_circuit
  obtain ⟨rfl, -⟩ := Arena.circuit?_eq_some.1 hc
  have hstart : Cutting limits ls c.arena ⟨[c], #[]⟩ [] := .start hsum hes
  obtain ⟨low, b', done, hrun, hcut⟩ := hstart.rounds (c.arena.size + 1) hcolumns
  have hbucket : bucket limits [c] c.arena = .ok low b' := hrun
  have hle := maxDegree_le_of_bucket (by simp) hbucket
  have hperm : done.Perm (ls.flatMap (cuts limits.target.toNat)).dedup := by
    refine (List.perm_ext_iff_of_nodup hcut.nodup (List.nodup_dedup _)).2 fun p => ?_
    rw [List.mem_dedup, List.mem_flatMap]
    constructor
    · exact hcut.mem_cuts p
    · rintro ⟨l, hl, hp⟩
      exact hcut.mem_of_maxDegree_le hle hl hp
  have hsize : low.rules.size = (ls.flatMap (cuts limits.target.toNat)).dedup.length :=
    hcut.size_rules.trans hperm.length_eq
  refine ⟨k, c.arena, c, low, b', hbuild, hc, hbucket, fun rule hr => ?_, hsize, fun hnodup => ?_⟩
  · obtain ⟨htable, d, hd, hdegree⟩ := hcut.rules rule hr.val
    obtain ⟨d', hd', rfl⟩ := hd.exists_circuit
    exact ⟨by simpa [Rule.isMain] using htable, d', hd', by rw [d'.degree_eq, hdegree]⟩
  · rw [hsize, (nodup_flatMap_cuts (by omega) hnodup).dedup, List.length_flatMap,
      Nat.cast_list_sum, List.map_map]
    refine congrArg List.sum (List.map_congr_left fun l _ => ?_)
    have htoNat : (limits.target : ℚ) = (limits.target.toNat : ℚ) := by
      have : limits.target = limits.target.toNat := by omega
      exact_mod_cast this
    rw [htoNat]
    exact length_cuts_eq_ceil (by omega) l

/-- Columns for a product of six and one of four columns, beside shorter ones. -/
theorem Lower.bucket_sumOfProducts_distinct :
    let limits : Limits := ⟨3, 11, 0, by decide⟩
    let ls : List (List Int) := [[0, 1, 2, 3, 4, 5], [], [6], [7, 8, 9, 10]]
    ls.flatten.Nodup ∧ (∀ l ∈ ls, ∀ x ∈ l, x < limits.mainColumns) ∧
      ∃ k b c low b', Build.sumOfProducts ls (.empty 0) = .ok k b ∧ b.circuit? k = some c ∧
        bucket limits [c] b = .ok low b' ∧ low.rules.size = 3 := by
  intro limits ls
  have hnodup : ls.flatten.Nodup := by decide
  have hcolumns : ∀ l ∈ ls, ∀ x ∈ l, x < limits.mainColumns := by decide
  obtain ⟨k, b, c, low, b', hbuild, hc, hrun, -, -, hsize⟩ :=
    bucket_sumOfProducts limits (.empty 0) ls hcolumns
  have hceil :
      (ls.map fun l => max 0 ⌈((l.length : ℚ) - limits.target) / (limits.target - 1)⌉).sum = 3 := by
    norm_num [ls, limits]
  refine ⟨hnodup, hcolumns, k, b, c, low, b', hbuild, hc, hrun, ?_⟩
  have := hsize hnodup
  rw [hceil] at this
  exact_mod_cast this

-- products that start alike share the column for what they start with
example : ([[0, 1, 2], [0, 1, 3]].flatMap (cuts 2)).dedup = [[0, 1]] := by decide

end AirCompiler
