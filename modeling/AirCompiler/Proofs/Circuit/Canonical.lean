import AirCompiler.Circuit.Substitute
import AirCompiler.Proofs.Circuit.Growth

/-!
# Arenas are canonical

An arena that is reached from an empty one by any operations, failing ones included, keeps every
expression once: two nodes whose trees differ at most in the order of operands, anywhere in the
trees, are the same node (`Arena.Unfolds.eq_of_commuted`). Interning looks at one label at a time.
That is enough as the operands are unique already: so nodes of commuted trees have one label, up to
the order of its two ids, and an arena finds a label in one place (`label?_inj`) and in one order
(`oriented`).

* `Arena.Canonical`: everything that is kept of the nodes: ids, order, folding, attributes and
  uniqueness.
* `Arena.canonical_reached`: it holds after every sequence of operations.
-/

namespace AirCompiler

/-! ## Operations -/

/-- An operation on an arena. Its circuits are named by ids and handles, whether or not there are
such nodes. -/
inductive Command where
  | leaf (x : Leaf)
  | operand (x : Operand)
  | binop (op : Op) (x y : Operand)
  | neg (i : Nat)
  | sub (x y : Operand)
  | pow (i : Nat) (exponent : Int)
  | sum (xs : List Operand)
  | product (xs : List Operand)
  | substitute (roots : List Nat) (target : Int) (replacement : Handle)

def Command.build : Command → Build Unit
  | .leaf x => discard (Build.leaf x)
  | .operand x => discard (Build.operand x)
  | .binop op x y => discard (Build.binop op x y)
  | .neg i => discard (Build.neg i)
  | .sub x y => discard (Build.sub x y)
  | .pow i exponent => discard (Build.pow i exponent)
  | .sum xs => discard (Build.sum xs)
  | .product xs => discard (Build.product xs)
  | .substitute roots target replacement => discard (Build.substitute roots target replacement)

namespace Arena

/-- The arena that an operation leaves, whether it succeeds or fails. -/
def after (a : Arena) (c : Command) : Arena :=
  match c.build a with
  | .ok _ b => b
  | .error _ b => b

/-- The arena after some operations on an empty one. -/
def reached (name : Nat) (commands : List Command) : Arena := commands.foldl after (.empty name)

end Arena

/-! ## Trees up to the order of operands -/

/-- The trees are equal up to the order of operands of any operations in them. -/
inductive Expr.Commuted : Expr → Expr → Prop
  | leaf (x : Leaf) : Commuted (.leaf x) (.leaf x)
  | straight {op : Op} {x x' y y' : Expr} : Commuted x x' → Commuted y y' →
      Commuted (.operation op x y) (.operation op x' y')
  | swapped {op : Op} {x x' y y' : Expr} : Commuted x x' → Commuted y y' →
      Commuted (.operation op x y) (.operation op y' x')

namespace Arena

variable {a : Arena}

/-- A label stands at one id. -/
theorem label?_inj {i j : Nat} {l : Label} (hi : a.label? i = some l) (hj : a.label? j = some l) :
    i = j := by
  have hfi : a.find? l = some i := find?_eq_some_iff.2 hi
  have hfj : a.find? l = some j := find?_eq_some_iff.2 hj
  rw [hfi] at hfj
  exact Option.some.inj hfj

/-- Nodes whose trees are equal up to the order of operands are the same node. -/
theorem Unfolds.eq_of_commuted {i j : Nat} {e f : Expr} (hi : a.Unfolds i e) (hj : a.Unfolds j f)
    (h : e.Commuted f) : i = j := by
  induction h generalizing i j with
  | leaf x =>
    cases hi with
    | leaf hi =>
      cases hj with
      | leaf hj => exact label?_inj hi hj
  | straight _ _ ihx ihy =>
    cases hi with
    | operation hi hx hy =>
      cases hj with
      | operation hj hx' hy' =>
        -- the operands are the same nodes, so the two nodes have one label
        obtain rfl := ihx hx hx'
        obtain rfl := ihy hy hy'
        exact label?_inj hi hj
  | swapped _ _ ihx ihy =>
    cases hi with
    | operation hi hx hy =>
      cases hj with
      | operation hj hy' hx' =>
        obtain rfl := ihx hx hx'
        obtain rfl := ihy hy hy'
        exact a.oriented _ _ _ _ _ hi hj

/-- An operation has at most one constant operand. -/
theorem not_constant_operands {i l r : Nat} {op : Op} (h : a.label? i = some (.binary op l r))
    {s t : Scalar} (hs : a.label? l = some (.leaf (.constant s))) :
    a.label? r ≠ some (.leaf (.constant t)) := by
  intro ht
  obtain ⟨n, hn, hlabel⟩ := Option.map_eq_some_iff.1 h
  have hunfolded := (fits_of_node? hn).unfolded
  rw [hlabel, Build.foldIn_eq_some.2 ⟨s, t, hs, ht, rfl⟩] at hunfolded
  cases hunfolded

/-- A node that is no constant is no constant polynomial either. -/
theorem Unfolds.degree_pos {i : Nat} {e : Expr} (h : a.Unfolds i e)
    (hi : ∀ s, a.label? i ≠ some (.leaf (.constant s))) : 0 < e.degree := by
  induction h with
  | @leaf i x hl =>
    cases x with
    | constant s => exact absurd hl (hi s)
    | input c => exact Nat.one_pos
    | challenge j => exact Nat.one_pos
  | @operation i l r op x y hl hx hy ihx ihy =>
    have hoperand : 0 < x.degree ∨ 0 < y.degree := by
      by_cases hc : ∃ s, a.label? l = some (.leaf (.constant s))
      · obtain ⟨s, hs⟩ := hc
        exact .inr (ihy fun t => not_constant_operands hl hs)
      · exact .inl (ihx fun s hs => hc ⟨s, hs⟩)
    cases op <;> simp only [Expr.degree, Op.degree] <;> omega

/-- What is kept of the nodes of an arena. -/
structure Canonical (a : Arena) : Prop where
  id_eq : ∀ i n, a.node? i = some n → n.id = i
  operands_lt : ∀ i n op l r, a.node? i = some n → n.label = .binary op l r → l < i ∧ r < i
  not_both_constant : ∀ i n op l r, a.node? i = some n → n.label = .binary op l r →
    ¬ ∃ s t, a.label? l = some (.leaf (.constant s)) ∧ a.label? r = some (.leaf (.constant t))
  /-- Every node has a tree, whose degree and base flag are kept at the node. -/
  attributes : ∀ i n, a.node? i = some n → ∃ e, a.Unfolds i e ∧
    n.degree = e.degree ∧ n.isBase = e.isBase
  unique : ∀ i j e f, a.Unfolds i e → a.Unfolds j f → e.Commuted f → i = j

theorem canonical (a : Arena) : a.Canonical where
  id_eq _ _ := id_of_node?
  operands_lt i n op l r hn hl := operands_lt (hl ▸ label?_of_node? hn)
  not_both_constant i n op l r hn hl := by
    rintro ⟨s, t, hs, ht⟩
    exact not_constant_operands (hl ▸ label?_of_node? hn) hs ht
  attributes i n hn := by
    obtain ⟨e, he⟩ := exists_unfolds (lt_of_node? hn)
    exact ⟨e, he, he.attributes hn⟩
  unique _ _ _ _ hi hj := hi.eq_of_commuted hj

/-- Every arena that operations lead to is canonical. -/
theorem canonical_reached (name : Nat) (commands : List Command) :
    (reached name commands).Canonical :=
  (reached name commands).canonical

end Arena

end AirCompiler
