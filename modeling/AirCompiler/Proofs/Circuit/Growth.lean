import AirCompiler.Circuit.Build
import AirCompiler.Proofs.Circuit.Tree

/-!
# Growing arenas

Construction only ever extends an arena. `Arena.Extends a b`: every node of `a` stands in `b` at its
id, and at most the number of constructions that led to it has grown; so every tree of `a` is one of
`b` (`Extends.unfolds`).

Each step of construction has one lemma that says that it succeeds, extends the arena, and what it
returns:

* `Build.leaf_spec`: the node of a leaf.
* `Build.combine_spec`: the node of an operation. It joins the operands (`Arena.Joins`): it is the
  operation in this order, in the other one, or folded into a constant. So its tree combines the
  operands' trees (`Combines`, `Joins.unfolds`).
* `Build.sub_spec`: the labels of a difference.
-/

namespace AirCompiler

namespace Arena

/-! ## Extensions -/

/-- Every node of the first arena stands in the second at its id. Only counts of constructions may
have grown. -/
structure Extends (a b : Arena) : Prop where
  name_eq : b.name = a.name
  kept : ∀ i n, a.node? i = some n → ∃ k, n.refs ≤ k ∧ b.node? i = some { n with refs := k }

namespace Extends

theorem refl (a : Arena) : a.Extends a := ⟨rfl, fun _ n h => ⟨n.refs, Nat.le_refl _, h⟩⟩

theorem trans {a b c : Arena} (h₁ : a.Extends b) (h₂ : b.Extends c) : a.Extends c := by
  refine ⟨h₂.name_eq.trans h₁.name_eq, fun i n hn => ?_⟩
  obtain ⟨k, hk, hb⟩ := h₁.kept i n hn
  obtain ⟨k', hk', hc⟩ := h₂.kept i _ hb
  exact ⟨k', Nat.le_trans hk hk', hc⟩

theorem touch (a : Arena) (i : Nat) : a.Extends (a.touch i) := by
  refine ⟨rfl, fun j n hn => ?_⟩
  rw [node?_touch, hn]
  split
  · exact ⟨n.refs + 1, Nat.le_succ _, rfl⟩
  · exact ⟨n.refs, Nat.le_refl _, rfl⟩

theorem push (a : Arena) (l : Label) (h : a.Admits l) (hl : a.find? l = none) :
    a.Extends (a.push l h hl) :=
  ⟨rfl,
    fun i n hn => ⟨n.refs, Nat.le_refl _, by rw [node?_push_of_lt a l h hl (lt_of_node? hn), hn]⟩⟩

variable {a b : Arena}

theorem label? (h : a.Extends b) {i : Nat} {l : Label} (hl : a.label? i = some l) :
    b.label? i = some l := by
  obtain ⟨n, hn, rfl⟩ := Option.map_eq_some_iff.1 hl
  obtain ⟨k, -, hb⟩ := h.kept i n hn
  rw [label?_of_node? hb]

theorem label?_eq (h : a.Extends b) {i : Nat} (hi : i < a.size) : b.label? i = a.label? i := by
  obtain ⟨n, hn⟩ := exists_node? hi
  rw [label?_of_node? hn, h.label? (label?_of_node? hn)]

theorem lt (h : a.Extends b) {i : Nat} (hi : i < a.size) : i < b.size := by
  obtain ⟨n, hn⟩ := exists_node? hi
  obtain ⟨k, -, hb⟩ := h.kept i n hn
  exact lt_of_node? hb

/-- Trees are kept. -/
theorem unfolds (h : a.Extends b) {i : Nat} {e : Expr} (he : a.Unfolds i e) : b.Unfolds i e := by
  induction he with
  | leaf hl => exact .leaf (h.label? hl)
  | operation hl _ _ ihx ihy => exact .operation (h.label? hl) ihx ihy

/-- A tree of the larger arena at an id of the smaller one is the tree there. -/
theorem unfolds_of_lt (h : a.Extends b) {i : Nat} {e : Expr} (hi : i < a.size)
    (he : b.Unfolds i e) : a.Unfolds i e := by
  obtain ⟨e', he'⟩ := exists_unfolds hi
  rw [he.unique (h.unfolds he')]
  exact he'

end Extends

/-- Interning extends the arena, and the id it returns carries the label. -/
theorem intern_spec (a : Arena) (l : Label) (h : a.Admits l) :
    a.Extends (a.intern l h).2 ∧ (a.intern l h).2.label? (a.intern l h).1 = some l := by
  unfold intern
  split
  · rename_i i hf
    exact ⟨.touch a i, (Extends.touch a i).label? (find?_eq_some_iff.1 hf)⟩
  · rename_i hf
    refine ⟨.push a l h hf, ?_⟩
    show ((a.nodes.push (a.fresh l))[a.nodes.size]?).map Node.label = some l
    rw [Array.getElem?_push_size]
    rfl

end Arena

/-! ## Steps of construction -/

/-- The tree `z` is the operation on `x` and `y`: in this order, in the other one, or folded into a
constant. -/
inductive Combines (op : Op) : Expr → Expr → Expr → Prop
  | straight (x y : Expr) : Combines op x y (.operation op x y)
  | swapped (x y : Expr) : Combines op x y (.operation op y x)
  | folded (s t : Scalar) :
      Combines op (.leaf (.constant s)) (.leaf (.constant t)) (.leaf (.constant (op.apply s t)))

namespace Combines

variable {op : Op} {x y z : Expr}

theorem value_eq (h : Combines op x y z) (ρ : Assignment) :
    z.value ρ = op.onExt (x.value ρ) (y.value ρ) := by
  cases h with
  | straight => rfl
  | swapped => exact op.onExt_comm _ _
  | folded s t => exact op.lift_apply s t

theorem mem_vars (h : Combines op x y z) {v : Leaf} : v ∈ z.vars ↔ v ∈ x.vars ∨ v ∈ y.vars := by
  cases h with
  | straight => exact List.mem_append
  | swapped => exact List.mem_append.trans or_comm
  | folded s t => simp [Expr.vars]

theorem degree_eq (h : Combines op x y z) : z.degree = op.degree x.degree y.degree := by
  cases h with
  | straight => rfl
  | swapped => cases op <;> simp only [Expr.degree, Op.degree] <;> omega
  | folded s t => cases op <;> rfl

theorem isBase_eq (h : Combines op x y z) : z.isBase = (x.isBase && y.isBase) := by
  cases h with
  | straight => rfl
  | swapped => exact Bool.and_comm _ _
  | folded s t => exact op.isBase_apply

end Combines

namespace Arena

/-- Node `k` is the operation on `i` and `j`: in this order, in the other one, or folded into a
constant. -/
def Joins (a : Arena) (op : Op) (i j k : Nat) : Prop :=
  a.label? k = some (.binary op i j) ∨ a.label? k = some (.binary op j i) ∨
    ∃ s t, a.label? i = some (.leaf (.constant s)) ∧ a.label? j = some (.leaf (.constant t)) ∧
      a.label? k = some (.leaf (.constant (op.apply s t)))

variable {a b : Arena} {op : Op} {i j k : Nat}

theorem Joins.mono (h : a.Joins op i j k) (hab : a.Extends b) : b.Joins op i j k := by
  obtain h | h | ⟨s, t, hs, ht, h⟩ := h
  · exact .inl (hab.label? h)
  · exact .inr (.inl (hab.label? h))
  · exact .inr (.inr ⟨s, t, hab.label? hs, hab.label? ht, hab.label? h⟩)

theorem Joins.lt (h : a.Joins op i j k) : k < a.size := by
  obtain h | h | ⟨_, _, _, _, h⟩ := h <;> exact lt_of_label? h

theorem Joins.unfolds (h : a.Joins op i j k) {x y : Expr} (hx : a.Unfolds i x)
    (hy : a.Unfolds j y) : ∃ z, a.Unfolds k z ∧ Combines op x y z := by
  obtain h | h | ⟨s, t, hs, ht, h⟩ := h
  · exact ⟨_, .operation h hx hy, .straight x y⟩
  · exact ⟨_, .operation h hy hx, .swapped x y⟩
  · obtain rfl := hx.unique (.leaf hs)
    obtain rfl := hy.unique (.leaf ht)
    exact ⟨_, .leaf h, .folded s t⟩

end Arena

namespace Build

variable {a : Arena}

theorem leaf_spec (a : Arena) (x : Leaf) :
    ∃ i b, leaf x a = .ok i b ∧ a.Extends b ∧ b.label? i = some (.leaf x) :=
  ⟨_, _, rfl, a.intern_spec (.leaf x) (a.admits_leaf x)⟩

/-- An operation that does not fold is a node with its operands in either order. -/
theorem combine_of_foldIn_eq_none (op : Op) {l r : Nat} (hl : l < a.size) (hr : r < a.size)
    (hf : (Label.binary op l r).foldIn a.nodes = none) :
    ∃ i b, combine op l r a = .ok i b ∧ a.Extends b ∧
      (b.label? i = some (.binary op l r) ∨ b.label? i = some (.binary op r l)) := by
  unfold combine
  rw [dif_pos ⟨hl, hr⟩]
  split
  · rename_i s hs
    rw [hf] at hs
    cases hs
  · split
    · rename_i i hi
      exact ⟨i, _, rfl, .touch a i,
        .inr ((Arena.Extends.touch a i).label? (Arena.find?_eq_some_iff.1 hi))⟩
    · rename_i hs
      obtain ⟨h₁, h₂⟩ :=
        a.intern_spec (.binary op l r) ⟨by simp only [Label.rank, Arena.size] at *; omega, hf,
          fun _ => hs⟩
      exact ⟨_, _, rfl, h₁, .inl h₂⟩

/-- An operation on two constants is a constant. -/
theorem combine_of_foldIn_eq_some (op : Op) {l r : Nat} (hl : l < a.size)
    (hr : r < a.size) {s : Scalar} (hf : (Label.binary op l r).foldIn a.nodes = some s) :
    ∃ i b, combine op l r a = .ok i b ∧ a.Extends b ∧ b.label? i = some (.leaf (.constant s)) := by
  unfold combine
  rw [dif_pos ⟨hl, hr⟩]
  split
  · rename_i t ht
    rw [hf] at ht
    cases ht
    exact leaf_spec a _
  · rename_i hs
    rw [hf] at hs
    cases hs

/-- The constant at a node. -/
theorem constant?_eq_some {i : Nat} {s : Scalar} :
    (∃ n, a.nodes[i]? = some n ∧ n.label.constant? = some s) ↔
      a.label? i = some (.leaf (.constant s)) := by
  rw [Arena.label?, Arena.node?]
  cases a.nodes[i]? with
  | none => simp
  | some n => rcases hn : n.label with (s' | c | j) | ⟨op, l, r⟩ <;> simp [Label.constant?, hn]

theorem foldIn_eq_some {op : Op} {l r : Nat} {u : Scalar} :
    (Label.binary op l r).foldIn a.nodes = some u ↔ ∃ s t, a.label? l = some (.leaf (.constant s)) ∧
      a.label? r = some (.leaf (.constant t)) ∧ u = op.apply s t := by
  simp only [Label.foldIn, Option.bind_eq_bind, Option.bind_eq_some_iff, constant?_eq_some,
    pure, Option.some.injEq]
  constructor
  · rintro ⟨s, hs, t, ht, rfl⟩
    exact ⟨s, t, hs, ht, rfl⟩
  · rintro ⟨s, t, hs, ht, rfl⟩
    exact ⟨s, hs, t, ht, rfl⟩

/-- The node of a combination joins the operands. -/
theorem combine_spec (op : Op) {l r : Nat} (hl : l < a.size) (hr : r < a.size) :
    ∃ i b, combine op l r a = .ok i b ∧ a.Extends b ∧ b.Joins op l r i := by
  cases hf : (Label.binary op l r).foldIn a.nodes with
  | some u =>
    obtain ⟨i, b, hc, he, hi⟩ := combine_of_foldIn_eq_some op hl hr hf
    obtain ⟨s, t, hs, ht, rfl⟩ := foldIn_eq_some.1 hf
    exact ⟨i, b, hc, he, .inr (.inr ⟨s, t, he.label? hs, he.label? ht, hi⟩)⟩
  | none =>
    obtain ⟨i, b, hc, he, hi | hi⟩ := combine_of_foldIn_eq_none op hl hr hf
    · exact ⟨i, b, hc, he, .inl hi⟩
    · exact ⟨i, b, hc, he, .inr (.inl hi)⟩

/-- A computation goes on from the result of its first step. -/
theorem bind_of_ok {ε σ α β : Type} {x : EStateM ε σ α} {f : α → EStateM ε σ β} {s t : σ} {v : α}
    (h : x s = .ok v t) : (x >>= f) s = f v t := by
  show EStateM.bind x f s = _
  rw [EStateM.bind, h]

theorem bind_of_error {ε σ α β : Type} {x : EStateM ε σ α} {f : α → EStateM ε σ β} {s t : σ} {e : ε}
    (h : x s = .error e t) : (x >>= f) s = .error e t := by
  show EStateM.bind x f s = _
  rw [EStateM.bind, h]

theorem operand_circuit {h : Handle} (ho : h.owner = a.name) :
    operand (.circuit h) a = .ok h.id a := by
  simp [operand, ho]

/-- A difference is the sum of the first node and the product of minus one with the second. Both
operations may stand in either order. -/
theorem sub_spec {v c : Nat} {x y : Expr} (hx : a.Unfolds v x) (hy : a.Unfolds c y)
    (hdx : 0 < x.degree) (hdy : 0 < y.degree) :
    ∃ k b m n, sub (.circuit ⟨a.name, v⟩) (.circuit ⟨a.name, c⟩) a = .ok k b ∧ a.Extends b ∧
      b.label? m = some (.leaf (.constant (.base .minusOne))) ∧
      (b.label? n = some (.binary .mul m c) ∨ b.label? n = some (.binary .mul c m)) ∧
      (b.label? k = some (.binary .add v n) ∨ b.label? k = some (.binary .add n v)) := by
  -- an operation with an operand that is no constant does not fold
  have hfold : ∀ {a : Arena} {op : Op} {l r i : Nat} {e : Expr}, a.Unfolds i e →
      0 < e.degree → (l = i ∨ r = i) → (Label.binary op l r).foldIn a.nodes = none := by
    intro a op l r i e he hd hi
    rw [Option.eq_none_iff_forall_ne_some]
    intro u hu
    obtain ⟨s, t, hs, ht, -⟩ := foldIn_eq_some.1 hu
    rcases hi with rfl | rfl
    · rw [he.unique (.leaf hs)] at hd
      cases hd
    · rw [he.unique (.leaf ht)] at hd
      cases hd
  obtain ⟨m, a₁, h₁, e₁, hm⟩ := leaf_spec a (.constant (.base .minusOne))
  have hy₁ := e₁.unfolds hy
  obtain ⟨n, a₂, h₂, e₂, hn⟩ :=
    combine_of_foldIn_eq_none .mul (Arena.lt_of_label? hm) hy₁.lt (hfold hy₁ hdy (.inr rfl))
  have hx₂ := e₂.unfolds (e₁.unfolds hx)
  have hn₂ : n < a₂.size := hn.elim Arena.lt_of_label? Arena.lt_of_label?
  obtain ⟨k, b, h₃, e₃, hk⟩ := combine_of_foldIn_eq_none .add hx₂.lt hn₂ (hfold hx₂ hdx (.inl rfl))
  refine ⟨k, b, m, n, ?_, e₁.trans (e₂.trans e₃), e₃.label? (e₂.label? hm),
    hn.imp e₃.label? e₃.label?, hk⟩
  rw [sub, bind_of_ok (operand_circuit rfl), bind_of_ok (operand_circuit rfl), difference,
    bind_of_ok (show neg c a = .ok n a₂ from ?_)]
  · exact h₃
  · rw [neg, minusOne, scalar, bind_of_ok h₁]
    exact h₂

end Build

end AirCompiler
