import AirCompiler.Proofs.Circuit.Growth
import AirCompiler.Proofs.Circuit.Walk
import Mathlib.Data.Finset.Card
import Mathlib.Data.Finset.Dedup
import Mathlib.Logic.Relation

/-!
# Nodes below a node

`Arena.Reaches a i j`: node `j` is `i` or stands below it. An arena that grows keeps what is below
its nodes (`Extends.reaches_iff`). A walk through a circuit lists exactly the nodes below its root
(`Circuit.mem_walk_iff`), so `operations cs`, the operations listed by walks through the circuits
`cs`, are the operations below their roots (`mem_operations`), and `Circuit.usesNextRow` says
whether a variable of the circuit's tree is a cell of the next row (`Circuit.usesNextRow_iff`).
-/

namespace AirCompiler

namespace Arena

/-- The second node is an operand of the first. -/
def HasOperand (a : Arena) (i j : Nat) : Prop :=
  ∃ op l r, a.label? i = some (.binary op l r) ∧ (j = l ∨ j = r)

def IsOperation (a : Arena) (i : Nat) : Prop := ∃ op l r, a.label? i = some (.binary op l r)

/-- The second node is the first or stands below it. -/
def Reaches (a : Arena) : Nat → Nat → Prop := Relation.ReflTransGen a.HasOperand

variable {a b : Arena} {i j : Nat}

theorem hasOperand_iff {n : Node} (hn : a.node? i = some n) :
    a.HasOperand i j ↔ j ∈ n.label.children := by
  rw [HasOperand, label?_of_node? hn]
  cases n.label with
  | leaf x => simp [Label.children]
  | binary op l r =>
    simp only [Label.children, List.mem_cons, List.not_mem_nil, or_false,
      Option.some.injEq, Label.binary.injEq]
    constructor
    · rintro ⟨_, _, _, ⟨rfl, rfl, rfl⟩, h⟩
      exact h
    · intro h
      exact ⟨op, l, r, ⟨rfl, rfl, rfl⟩, h⟩

theorem HasOperand.isOperation (h : a.HasOperand i j) : a.IsOperation i := by
  obtain ⟨op, l, r, hl, -⟩ := h
  exact ⟨op, l, r, hl⟩

theorem HasOperand.lt (h : a.HasOperand i j) : j < i := by
  obtain ⟨op, l, r, hl, rfl | rfl⟩ := h
  · exact (operands_lt hl).1
  · exact (operands_lt hl).2

theorem Joins.eq_or_eq {op : Op} {k w : Nat} (h : a.Joins op i j k) (hw : a.HasOperand k w) :
    w = i ∨ w = j := by
  obtain ⟨op', l, r, hl, hor⟩ := hw
  obtain hj | hj | ⟨_, _, _, _, hj⟩ := h
  · rw [hl] at hj
    cases hj
    exact hor
  · rw [hl] at hj
    cases hj
    exact hor.symm
  · rw [hl] at hj
    cases hj

theorem Reaches.le (h : a.Reaches i j) : j ≤ i := by
  induction h with
  | refl => exact Nat.le_refl _
  | tail _ hjk ih => exact Nat.le_trans (Nat.le_of_lt hjk.lt) ih

theorem reaches_leaf {x : Leaf} (hl : a.label? i = some (.leaf x)) : a.Reaches i j ↔ j = i := by
  constructor
  · intro h
    rcases h.cases_head with rfl | ⟨k, ⟨_, _, _, hl', -⟩, -⟩
    · rfl
    · rw [hl] at hl'
      cases hl'
  · rintro rfl
    exact .refl

theorem reaches_binary {op : Op} {l r : Nat} (hl : a.label? i = some (.binary op l r)) :
    a.Reaches i j ↔ j = i ∨ a.Reaches l j ∨ a.Reaches r j := by
  constructor
  · intro h
    rcases h.cases_head with rfl | ⟨k, ⟨_, _, _, hl', hk⟩, h⟩
    · exact .inl rfl
    · rw [hl] at hl'
      cases hl'
      rcases hk with rfl | rfl
      · exact .inr (.inl h)
      · exact .inr (.inr h)
  · rintro (rfl | h | h)
    · exact .refl
    · exact .head ⟨op, l, r, hl, .inl rfl⟩ h
    · exact .head ⟨op, l, r, hl, .inr rfl⟩ h

theorem not_isOperation_leaf {x : Leaf} (hl : a.label? i = some (.leaf x)) : ¬ a.IsOperation i := by
  rintro ⟨op, l, r, hl'⟩
  rw [hl] at hl'
  cases hl'

theorem Extends.hasOperand_iff (hab : a.Extends b) (hi : i < a.size) :
    b.HasOperand i j ↔ a.HasOperand i j := by
  rw [HasOperand, HasOperand, hab.label?_eq hi]

theorem Extends.reaches_iff (hab : a.Extends b) (hi : i < a.size) :
    b.Reaches i j ↔ a.Reaches i j := by
  constructor
  · intro h
    induction h with
    | refl => exact .refl
    | tail _ hjk ih => exact ih.tail ((hab.hasOperand_iff (Nat.lt_of_le_of_lt ih.le hi)).1 hjk)
  · intro h
    induction h with
    | refl => exact .refl
    | tail _ hjk ih =>
      obtain ⟨op, x, y, hl, hop⟩ := hjk
      exact ih.tail ⟨op, x, y, hab.label? hl, hop⟩

/-- The tree below is part of the tree above. -/
theorem Reaches.unfolds {e : Expr} (h : a.Reaches i j) (he : a.Unfolds i e) :
    ∃ f, a.Unfolds j f ∧ ∀ x ∈ f.vars, x ∈ e.vars := by
  induction h with
  | refl => exact ⟨e, he, fun _ hx => hx⟩
  | tail _ hjk ih =>
    obtain ⟨f, hf, hvars⟩ := ih
    obtain ⟨op, l, r, hl, hop⟩ := hjk
    obtain ⟨x, y, rfl, hx, hy⟩ := hf.exists_operands hl
    rcases hop with rfl | rfl
    · exact ⟨_, hx, fun x hm => hvars x (List.mem_append_left _ hm)⟩
    · exact ⟨_, hy, fun x hm => hvars x (List.mem_append_right _ hm)⟩

/-- The variables of a tree stand at leaves below its root. -/
theorem Unfolds.exists_leaf {e : Expr} (h : a.Unfolds i e) {x : Leaf} (hx : x ∈ e.vars) :
    ∃ j, a.Reaches i j ∧ a.label? j = some (.leaf x) := by
  induction h with
  | leaf hl =>
    obtain rfl := Expr.mem_vars_leaf hx
    exact ⟨_, .refl, hl⟩
  | operation hl _ _ ihl ihr =>
    rcases List.mem_append.1 hx with hx | hx
    · obtain ⟨j, hr, hj⟩ := ihl hx
      exact ⟨j, .head ⟨_, _, _, hl, .inl rfl⟩ hr, hj⟩
    · obtain ⟨j, hr, hj⟩ := ihr hx
      exact ⟨j, .head ⟨_, _, _, hl, .inr rfl⟩ hr, hj⟩

end Arena

/-- A walk lists the nodes below the root of the circuit. -/
theorem Circuit.mem_walk_iff {c : Circuit} {n : Node} :
    n ∈ c.walk ↔ c.arena.node? n.id = some n ∧ c.arena.Reaches c.id n.id := by
  have hid := Arena.id_of_node? c.node?_id
  constructor
  · revert n
    show ∀ n ∈ c.walk, _
    refine Arena.postorder_induction ⟨hid ▸ c.node?_id, hid ▸ .refl⟩ ?_
    rintro n op l r nl nr ⟨hn, hr⟩ hlabel hl hr'
    have hil := Arena.id_of_node? hl
    have hir := Arena.id_of_node? hr'
    have hop : ∀ j ∈ n.label.children, c.arena.Reaches c.id j := fun j hj =>
      hr.tail ((Arena.hasOperand_iff hn).2 hj)
    rw [hlabel] at hop
    exact ⟨⟨hil ▸ hl, hil ▸ hop l (by simp [Label.children])⟩, hir ▸ hr',
      hir ▸ hop r (by simp [Label.children])⟩
  · rintro ⟨hn, hreach⟩
    obtain ⟨hl, hroot⟩ := Arena.listing_postorder (fun _ => false) c.node?_id
    have hmem : ∀ j, c.arena.Reaches c.id j → j ∈ c.walk.map Node.id := by
      intro j hj
      induction hj with
      | refl => exact hroot.resolve_left (by simp)
      | tail _ hjk ih =>
        obtain ⟨m, hm, rfl⟩ := List.mem_map.1 ih
        obtain ⟨hnode, hc⟩ := hl.closed hm
        exact (hc _ ((Arena.hasOperand_iff hnode).1 hjk)).resolve_left (by simp)
    obtain ⟨m, hm, hmn⟩ := List.mem_map.1 (hmem n.id hreach)
    have hm' := (hl.closed hm).1
    rw [hmn, hn, Option.some.injEq] at hm'
    exact hm' ▸ hm

theorem Circuit.usesNextRow_iff {c : Circuit} :
    c.usesNextRow = true ↔ ∃ cell : Cell, cell.row = .next ∧ .input cell ∈ c.expr.vars := by
  rw [usesNextRow, List.any_eq_true]
  constructor
  · rintro ⟨n, hn, h⟩
    obtain ⟨hnode, hreach⟩ := mem_walk_iff.1 hn
    obtain ⟨e, he, hvars⟩ := hreach.unfolds c.unfolds_expr
    split at h
    · rename_i cell hlabel
      obtain rfl := he.unique (.leaf (hlabel ▸ Arena.label?_of_node? hnode))
      exact ⟨cell, by simpa using h, hvars _ (by simp [Expr.vars])⟩
    · cases h
  · rintro ⟨cell, hrow, hcell⟩
    obtain ⟨j, hreach, hlabel⟩ := c.unfolds_expr.exists_leaf hcell
    obtain ⟨n, hn, hleaf⟩ := Option.map_eq_some_iff.1 hlabel
    have hid := Arena.id_of_node? hn
    exact ⟨n, mem_walk_iff.2 (by rw [hid]; exact ⟨hn, hreach⟩), by simp [hleaf, hrow]⟩

/-- The ids of the operations in some circuits. -/
def operations (cs : List Circuit) : Finset Nat :=
  (cs.flatMap fun c => (c.walk.filter fun n => n.label.isBinary).map Node.id).toFinset

theorem mem_operations {cs : List Circuit} {i : Nat} :
    i ∈ operations cs ↔ ∃ c ∈ cs, c.arena.Reaches c.id i ∧ c.arena.IsOperation i := by
  simp only [operations, List.mem_toFinset, List.mem_flatMap, List.mem_map, List.mem_filter,
    Circuit.mem_walk_iff]
  constructor
  · rintro ⟨c, hc, n, ⟨⟨hn, hr⟩, hb⟩, rfl⟩
    refine ⟨c, hc, hr, ?_⟩
    rw [Arena.IsOperation, Arena.label?_of_node? hn]
    cases hl : n.label with
    | leaf x => rw [hl] at hb; cases hb
    | binary op l r => exact ⟨op, l, r, rfl⟩
  · rintro ⟨c, hc, hr, op, l, r, hl⟩
    obtain ⟨n, hn, hlabel⟩ := Option.map_eq_some_iff.1 hl
    obtain rfl := Arena.id_of_node? hn
    exact ⟨c, hc, n, ⟨⟨hn, hr⟩, by rw [hlabel]; rfl⟩, rfl⟩

theorem card_operations_le {a : Arena} {cs : List Circuit} (h : ∀ c ∈ cs, c.arena = a) :
    (operations cs).card ≤ a.size := by
  have hsub : operations cs ⊆ Finset.range a.size := by
    intro i hi
    obtain ⟨c, hc, -, op, l, r, hl⟩ := mem_operations.1 hi
    exact Finset.mem_range.2 (Arena.lt_of_label? (h c hc ▸ hl))
  simpa using Finset.card_le_card hsub

end AirCompiler
