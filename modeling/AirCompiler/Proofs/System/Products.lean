import AirCompiler.Proofs.Circuit.Replacement
import AirCompiler.Proofs.System.Lowering
import AirCompiler.System.Samples

/-!
# Sums of products

Products of columns are built one factor at a time, and sums one summand at a time, so both are
known up to the order of operands (`IsProduct`, `IsSum`). Lowering looks for a factor in the tree of
a circuit (`Circuit.map_expr_factor?`):

* `IsSum.exists_factor?`: in a sum it looks into a summand above the target degree.
* `IsProduct.exists_factor?`: in a product it finds the first part of exactly the target degree.
* `IsProduct.commuted`, `IsProduct.injective`: equal factors give equal products up to the order of
  operands, and only they do.
* `IsProduct.substituted`: replacing such a part leaves a product that starts with what was put in,
  or the product as it was.
* `Build.sumOfProducts_spec`: what constructing a sum of products yields.
-/

namespace AirCompiler

/-! ## Factors of trees -/

namespace Expr

def isModerate (target : Int) (e : Expr) : Bool := 1 < e.degree && (e.degree : Int) ≤ target

/-- The factor to replace below a tree above the target degree. -/
def factor? (target : Int) : Expr → Option Expr
  | .operation op x y =>
    if op = .mul && x.isModerate target then some x
    else if op = .mul && y.isModerate target then some y
    else if target < x.degree then x.factor? target
    else if target < y.degree then y.factor? target
    else none
  | _ => none

end Expr

/-- The factor to replace is found in the tree of a circuit. -/
theorem Circuit.map_expr_factor? (target : Int) (c : Circuit) :
    (c.factor? target).map Circuit.expr = c.expr.factor? target := by
  induction hi : c.id using Nat.strongRecOn generalizing c with
  | ind i ih =>
    subst hi
    cases hlab : c.node.label with
    | leaf v =>
      rw [expr_leaf hlab, factor?]
      split
      · rfl
      · rename_i h
        rw [hlab] at h
        cases h
    | binary op l r =>
      obtain ⟨hlt₁, hlt₂⟩ := child_lt hlab
      have hc : c.id < c.arena.size := c.isLt
      obtain ⟨x, hx⟩ := Arena.exists_circuit? (a := c.arena) (i := l) (by omega)
      obtain ⟨y, hy⟩ := Arena.exists_circuit? (a := c.arena) (i := r) (by omega)
      have hxi := (Arena.circuit?_eq_some.1 hx).2
      have hyi := (Arena.circuit?_eq_some.1 hy).2
      have hxf := ih x.id (by omega) x rfl
      have hyf := ih y.id (by omega) y rfl
      rw [factor?_binary hlab hx hy, expr_binary hlab hx hy, Expr.factor?, ← hxf, ← hyf]
      simp only [apply_ite (Option.map Circuit.expr), Option.map_some, Option.map_none, isModerate,
        Expr.isModerate, degree_eq]
      rfl

namespace Expr

variable {target : Int} {e p z : Expr} {v : Leaf}

/-- Below a product with a variable the factor is the other operand, or stands below it. -/
theorem factor?_mul (hc : Combines .mul e (.leaf v) z) (hv : v.degree = 1) (ht : 2 ≤ target) :
    z.factor? target = if e.isModerate target then some e
      else if target < e.degree then e.factor? target else none := by
  have hleaf : (Expr.leaf v).isModerate target = false := by simp [isModerate, degree, hv]
  have hlow : ¬ target < ((Expr.leaf v).degree : Int) := by rw [degree, hv]; omega
  rcases hc.eq_or_eq (by omega) with rfl | rfl <;> simp [factor?, hleaf, hlow]

/-- Below a sum the factor stands in a summand above the target. -/
theorem factor?_add (hc : Combines .add e p z) (hd : target < z.degree) (ht : 0 ≤ target) :
    (target < e.degree ∧ z.factor? target = e.factor? target) ∨
      (target < p.degree ∧ z.factor? target = p.factor? target) := by
  have hmax := hc.degree_eq
  simp only [Op.degree] at hmax
  cases hc with
  | straight =>
    by_cases he : target < e.degree
    · exact .inl ⟨he, by simp [factor?, he]⟩
    · exact .inr ⟨by omega, by simp [factor?, he, show target < p.degree by omega]⟩
  | swapped =>
    by_cases hp : target < p.degree
    · exact .inr ⟨hp, by simp [factor?, hp]⟩
    · exact .inl ⟨by omega, by simp [factor?, hp, show target < e.degree by omega]⟩
  | folded s t => simp only [degree, Leaf.degree] at hd; omega

end Expr

/-! ## Products of columns -/

/-- A cell of a main column in the current row. -/
def Leaf.mainColumn (x : Int) : Leaf := .input ⟨.current, .main, x⟩

theorem Leaf.mainColumn_degree_ne {x : Int} : (Leaf.mainColumn x).degree ≠ 0 := Nat.one_ne_zero

/-- The product of a leaf and of main columns, multiplied one by one. -/
abbrev IsProduct (h : Leaf) : List Int → Expr → Prop :=
  Accumulates .mul (fun x => .leaf (.mainColumn x)) (.leaf h)

namespace IsProduct

variable {h h' : Leaf} {xs ys : List Int} {e t : Expr}

theorem degree_eq (hp : IsProduct h xs e) : e.degree = h.degree + xs.length := by
  induction hp with
  | nil => rfl
  | snoc _ hc ih =>
    rw [hc.degree_eq, ih, List.length_append]
    rfl

theorem isBase_eq (hp : IsProduct h xs e) : e.isBase = h.isBase := by
  induction hp with
  | nil => rfl
  | snoc _ hc ih =>
    rw [hc.isBase_eq, ih]
    exact Bool.and_true _

/-- Up to the order of operands there is one product. -/
theorem commuted (he : IsProduct h xs e) (ht : IsProduct h xs t) : e.Commuted t := by
  induction he generalizing t with
  | nil =>
    generalize hl : ([] : List Int) = l at ht
    cases ht with
    | nil => exact .leaf h
    | snoc => simp at hl
  | snoc _ hc ih =>
    obtain ⟨t₀, ht₀, hc'⟩ := ht.exists_of_snoc
    have hsame := ih ht₀
    rcases hc.eq_or_eq (Leaf.mainColumn_degree_ne) with rfl | rfl <;>
      rcases hc'.eq_or_eq (Leaf.mainColumn_degree_ne) with rfl | rfl
    · exact .straight hsame (.leaf _)
    · exact .swapped hsame (.leaf _)
    · exact .swapped (.leaf _) hsame
    · exact .straight (.leaf _) hsame

theorem eq_of_leaf {v : Leaf} (hp : IsProduct h xs (.leaf v)) : xs = [] ∧ h = v := by
  generalize he : Expr.leaf v = e at hp
  cases hp with
  | nil =>
    cases he
    exact ⟨rfl, rfl⟩
  | snoc _ hc => rcases hc.eq_or_eq (Leaf.mainColumn_degree_ne) with rfl | rfl <;> cases he

theorem exists_operands (hp : IsProduct h xs e) (hne : xs ≠ []) :
    ∃ l r, e = .operation .mul l r := by
  cases hp with
  | nil => exact absurd rfl hne
  | snoc _ hc => rcases hc.eq_or_eq Leaf.mainColumn_degree_ne with rfl | rfl <;> exact ⟨_, _, rfl⟩

/-- A product determines its factors, as long as it does not start with a column like those that it
is multiplied with. -/
theorem injective (he : IsProduct h xs e) (ht : IsProduct h' ys t)
    (hh : ∀ y ∈ ys, h ≠ .mainColumn y) (hc : e.Commuted t) : h = h' ∧ xs = ys := by
  induction he generalizing t ys with
  | nil =>
    cases hc
    obtain ⟨rfl, rfl⟩ := ht.eq_of_leaf
    exact ⟨rfl, rfl⟩
  | @snoc xs x e z he hz ih =>
    cases ht with
    | nil => rcases hz.eq_or_eq Leaf.mainColumn_degree_ne with rfl | rfl <;> cases hc
    | @snoc ys y t z' ht hz' =>
      -- the shorter products correspond to one another, or one of them is a column, which it does
      -- not start with
      have hoperands :
          (e.Commuted t ∧ (Expr.leaf (.mainColumn x)).Commuted (.leaf (.mainColumn y))) ∨
          e.Commuted (.leaf (.mainColumn y)) := by
        rcases hz.eq_or_eq Leaf.mainColumn_degree_ne with rfl | rfl <;>
          rcases hz'.eq_or_eq Leaf.mainColumn_degree_ne with rfl | rfl <;> cases hc with
          | straight hx hy => tauto
          | swapped hx hy => tauto
      rcases hoperands with ⟨het, hxy⟩ | het
      · obtain ⟨rfl, rfl⟩ := ih ht (fun y' hy' => hh y' (List.mem_append_left _ hy')) het
        cases hxy
        exact ⟨rfl, rfl⟩
      · cases het
        exact absurd (IsProduct.eq_of_leaf he).2 (hh y (by simp))

/-- Above the target the factor to replace is the part of exactly the target degree that the product
starts with. -/
theorem exists_factor? (hp : IsProduct h xs e) {target : Nat} (ht : 2 ≤ target) (hh : h.degree ≤ 1)
    (hd : target < e.degree) :
    ∃ t, e.factor? target = some t ∧ IsProduct h (xs.take (target - h.degree)) t := by
  induction hp with
  | nil => simp only [Expr.degree] at hd; omega
  | @snoc xs x e z hp hz ih =>
    have hlen := IsProduct.degree_eq hp
    have hdeg : z.degree = e.degree + 1 := hz.degree_eq
    rw [Expr.factor?_mul hz rfl (by omega), List.take_append_of_le_length (by omega)]
    by_cases hm : e.isModerate target = true
    · simp only [Expr.isModerate, Bool.and_eq_true, decide_eq_true_eq] at hm
      refine ⟨e, by simp [Expr.isModerate, hm], ?_⟩
      rwa [List.take_of_length_le (by omega)]
    · simp only [Expr.isModerate, Bool.and_eq_true, decide_eq_true_eq] at hm
      have hlt : target < e.degree := by omega
      obtain ⟨t, hf, htake⟩ := ih hlt
      exact ⟨t, by simp [Expr.isModerate, hlt, hf], htake⟩

/-- What becomes of a product when another one is replaced by a leaf: its first part is replaced if
it is that product. -/
theorem substituted {y : Leaf} {ps : List Int} {e' : Expr} (hp : IsProduct h xs e)
    (ht : IsProduct h' ps t) (hps : ps ≠ []) (hh : ∀ x ∈ ps, h ≠ .mainColumn x)
    (hs : Substituted t (.leaf y) e e') :
    (∃ rest, h = h' ∧ xs = ps ++ rest ∧ IsProduct y rest e') ∨
      (¬ (h = h' ∧ ps <+: xs) ∧ IsProduct h xs e') := by
  obtain ⟨l, r, rfl⟩ := ht.exists_operands hps
  induction hp generalizing e' with
  | nil =>
    rw [hs.eq_of_leaf]
    exact .inr ⟨fun heq => hps (List.prefix_nil.1 heq.2), .nil⟩
  | @snoc xs x e z hp hz ih =>
    rcases hs.of_combines hz Leaf.mainColumn_degree_ne with ⟨hc, rfl⟩ | ⟨hc, e₁, hs₁, hz₁⟩
    · obtain ⟨rfl, rfl⟩ := injective (hp.snoc hz) ht hh hc
      exact .inl ⟨[], rfl, (List.append_nil _).symm, .nil⟩
    · rcases ih hs₁ with ⟨rest, rfl, rfl, hrest⟩ | ⟨hne, hp₁⟩
      · exact .inl ⟨rest ++ [x], rfl, List.append_assoc _ _ _, hrest.snoc hz₁⟩
      · refine .inr ⟨?_, hp₁.snoc hz₁⟩
        rintro ⟨rfl, hpre⟩
        rcases List.prefix_concat_iff.1 hpre with rfl | hpre
        · exact hc (commuted (hp.snoc hz) ht)
        · exact hne ⟨rfl, hpre⟩

end IsProduct

/-! ## Sums -/

/-- The sum of trees, added one by one to zero. -/
abbrev IsSum : List Expr → Expr → Prop := Accumulates .add id (.leaf (.constant (.base 0)))

namespace IsSum

variable {es : List Expr} {e : Expr} {target : Int}

/-- Above the target the factor to replace is that of a summand above the target. -/
theorem exists_factor? (hs : IsSum es e) (ht : 0 ≤ target) (hd : target < e.degree) :
    ∃ p ∈ es, target < p.degree ∧ e.factor? target = p.factor? target := by
  induction hs with
  | nil => simp only [Expr.degree, Leaf.degree] at hd; omega
  | @snoc es p e z _ hc ih =>
    rcases Expr.factor?_add hc hd ht with ⟨he, hf⟩ | ⟨hp, hf⟩
    · obtain ⟨q, hq, hqd, hqf⟩ := ih he
      exact ⟨q, List.mem_append_left _ hq, hqd, hf.trans hqf⟩
    · exact ⟨p, by simp, hp, hf⟩

theorem degree_le (hs : IsSum es e) {p : Expr} (hp : p ∈ es) : p.degree ≤ e.degree := by
  induction hs with
  | nil => cases hp
  | @snoc es q e z _ hc ih =>
    have hmax : z.degree = max e.degree q.degree := hc.degree_eq
    rcases List.mem_append.1 hp with hp | hp
    · have := ih hp
      omega
    · obtain rfl := List.mem_singleton.1 hp
      omega

end IsSum

/-! ## Construction -/

namespace Build

/-- The sum of products of main columns of the current row. -/
def sumOfProducts (ls : List (List Int)) : Build Nat := do
  let own := (← get).name
  let summands ← ls.mapM fun l => do
    let factors ← l.mapM currentMain
    product (factors.map fun i => .circuit ⟨own, i⟩)
  sum (summands.map fun i => .circuit ⟨own, i⟩)

variable {a : Arena}

/-- Nodes constructed one after another. -/
theorem mapM_spec {α : Type} {f : α → Build Nat} {R : Arena → Nat → α → Prop} {own : Nat}
    (hf : ∀ x, ∀ a : Arena, a.name = own → ∃ k b, f x a = .ok k b ∧ a.Extends b ∧ R b k x)
    (hmono : ∀ a b k x, a.Extends b → R a k x → R b k x) (xs : List α) (ha : a.name = own) :
    ∃ ks b, xs.mapM f a = .ok ks b ∧ a.Extends b ∧ List.Forall₂ (R b) ks xs := by
  induction xs generalizing a with
  | nil => exact ⟨[], a, rfl, .refl a, .nil⟩
  | cons x xs ih =>
    obtain ⟨k, b, hk, hab, hr⟩ := hf x a ha
    obtain ⟨ks, c, hks, hbc, hrs⟩ := ih (hab.name_eq.trans ha)
    refine ⟨k :: ks, c, ?_, hab.trans hbc, .cons (hmono b c k x hbc hr) hrs⟩
    rw [List.mapM_cons, bind_of_ok hk, bind_of_ok hks]
    rfl

/-- Operands that are added or multiplied one by one to a constant. -/
theorem accumulate_scalar_spec {α : Type} (op : Op) {f : α → Expr} (s : Scalar)
    {ys : List α} {is : List Nat} (hys : List.Forall₂ (fun i y => a.Unfolds i (f y)) is ys) :
    ∃ k b, (do accumulate op (← scalar s) (is.map fun i => .circuit ⟨a.name, i⟩) : Build Nat) a =
      .ok k b ∧ a.Extends b ∧ ∃ z, b.Unfolds k z ∧ Accumulates op f (.leaf (.constant s)) ys z := by
  obtain ⟨i, b, hi, hab, hl⟩ := leaf_spec a (.constant s)
  obtain ⟨k, c, hk, hbc, hz⟩ := accumulate_spec (.leaf hl) .nil (hys.imp fun _ _ h => hab.unfolds h)
  refine ⟨k, c, ?_, hab.trans hbc, hz⟩
  rw [scalar, bind_of_ok hi, ← hab.name_eq, hk]

theorem sumOfProducts_spec (a : Arena) (ls : List (List Int)) :
    ∃ k b, sumOfProducts ls a = .ok k b ∧ a.Extends b ∧ ∃ e es, b.Unfolds k e ∧ IsSum es e ∧
      List.Forall₂ (IsProduct (.constant (.base 1))) ls es := by
  have hcolumn : ∀ x, ∀ b : Arena, b.name = a.name →
      ∃ k c, currentMain x b = .ok k c ∧ b.Extends c ∧ c.Unfolds k (.leaf (.mainColumn x)) := by
    intro x b _
    obtain ⟨k, c, hk, hbc, hl⟩ := leaf_spec b (.mainColumn x)
    exact ⟨k, c, hk, hbc, .leaf hl⟩
  have hproduct : ∀ l, ∀ b : Arena, b.name = a.name →
      ∃ k c, (do product ((← l.mapM currentMain).map fun i => .circuit ⟨a.name, i⟩) : Build Nat) b =
        .ok k c ∧ b.Extends c ∧ ∃ e, c.Unfolds k e ∧ IsProduct (.constant (.base 1)) l e := by
    intro l b hb
    obtain ⟨is, c, his, hbc, hl⟩ := mapM_spec hcolumn (fun _ _ _ _ h => h.unfolds) l hb
    obtain ⟨k, d, hk, hcd, hz⟩ := accumulate_scalar_spec .mul (.base 1) hl
    refine ⟨k, d, ?_, hbc.trans hcd, hz⟩
    rw [hbc.name_eq.trans hb] at hk
    rw [bind_of_ok his]
    exact hk
  have hmono : ∀ (b c : Arena) k l, b.Extends c →
      (∃ e, b.Unfolds k e ∧ IsProduct (.constant (.base 1)) l e) →
      ∃ e, c.Unfolds k e ∧ IsProduct (.constant (.base 1)) l e := by
    rintro b c k l hbc ⟨e, he, hp⟩
    exact ⟨e, hbc.unfolds he, hp⟩
  obtain ⟨ks, b, hks, hab, hl⟩ := mapM_spec hproduct hmono ls rfl
  obtain ⟨es, hes, hp⟩ := exists_forall₂ hl
  obtain ⟨k, c, hk, hbc, e, he, hs⟩ := accumulate_scalar_spec (f := id) .add (.base 0) hes
  refine ⟨k, c, ?_, hab.trans hbc, e, es, he, hs, hp⟩
  rw [sumOfProducts, bind_of_ok (show (get : Build Arena) a = .ok a a from rfl),
    bind_of_ok hks, ← hab.name_eq]
  exact hk

end Build

end AirCompiler
