import AirCompiler.Proofs.Circuit.Canonical
import AirCompiler.Proofs.Circuit.Rewriting

/-!
# Replacing every occurrence

`Substituted t v e e'`: the tree `e'` comes from `e` by putting `v` in the place of every subtree
that is `t` up to the order of operands, and combining the parts again. A substitution does just
this, as an arena has one node for all such subtrees (`Rebuilt.Sound.substituted`).

`Accumulates op f s xs e`: the tree `e` adds or multiplies the trees of `xs` one by one to `s`.

* `Build.accumulate_spec`: what adding or multiplying operands one by one builds.
* `Accumulates.substituted`: a product is no part of a sum, so it is replaced within the summands.
-/

namespace AirCompiler

/-! ## Combinations -/

theorem Combines.symm {op : Op} {x y z : Expr} (h : Combines op x y z) : Combines op y x z := by
  cases h with
  | straight => exact .swapped y x
  | swapped => exact .straight y x
  | folded s t =>
    rw [op.apply_comm]
    exact .folded t s

/-- A combination with a variable is an operation. -/
theorem Combines.eq_or_eq {op : Op} {x z : Expr} {v : Leaf} (h : Combines op x (.leaf v) z)
    (hv : v.degree ≠ 0) : z = .operation op x (.leaf v) ∨ z = .operation op (.leaf v) x := by
  cases h with
  | straight => exact .inl rfl
  | swapped => exact .inr rfl
  | folded s t => exact absurd rfl hv

theorem Arena.Unfolds.commuted_self {a : Arena} {i : Nat} {e : Expr} (h : a.Unfolds i e) :
    e.Commuted e := by
  induction h with
  | leaf _ => exact .leaf _
  | operation _ _ _ ihx ihy => exact .straight ihx ihy

/-! ## Substitution -/

/-- The second tree is the first with `v` in the place of every occurrence of `t`, in any order of
operands. -/
inductive Substituted (t v : Expr) : Expr → Expr → Prop
  | replaced {e : Expr} : e.Commuted t → Substituted t v e v
  | leaf {x : Leaf} : ¬ (Expr.leaf x).Commuted t → Substituted t v (.leaf x) (.leaf x)
  | joined {op : Op} {x y x' y' z : Expr} : ¬ (Expr.operation op x y).Commuted t →
      Substituted t v x x' →
      Substituted t v y y' → Combines op x' y' z → Substituted t v (.operation op x y) z

/-- What an id became has the tree of the id with every occurrence of the replaced tree
substituted. -/
theorem Rebuilt.Sound.substituted {a : Arena} {v chosen : Nat} {done : Rebuilt}
    (h : Sound a chosen v done) {t w : Expr} (ht : a.Unfolds chosen t) (hw : a.Unfolds v w)
    {i : Nat} {x : Handle} (hx : done[i]? = some x) :
    ∃ e e', a.Unfolds i e ∧ a.Unfolds x.id e' ∧ Substituted t w e e' := by
  induction i using Nat.strongRecOn generalizing x with
  | ind i ih =>
    by_cases hi : (i : Int) = chosen
    · obtain ⟨y, hy, rfl⟩ := h.replaced i hi
      rw [hx, Option.some.injEq] at hy
      obtain rfl := Int.natCast_inj.1 hi
      exact ⟨t, w, ht, hy ▸ hw, .replaced ht.commuted_self⟩
    · -- another node has another tree, in whichever order of operands
      have hne : ∀ {e}, a.Unfolds i e → ¬ e.Commuted t :=
        fun he hc => hi (Int.natCast_inj.2 (he.eq_of_commuted ht hc))
      cases h.rebuilt i x hx hi with
      | leaf hl => exact ⟨_, _, .leaf hl, .leaf hl, .leaf (hne (.leaf hl))⟩
      | joined hl hy hz hjoin =>
        obtain ⟨hlt, hrt⟩ := Arena.operands_lt hl
        obtain ⟨e, e', he, he', hs⟩ := ih _ hlt hy
        obtain ⟨f, f', hf, hf', hs'⟩ := ih _ hrt hz
        obtain ⟨z, hz, hcomb⟩ := hjoin.unfolds he' hf'
        exact ⟨_, z, .operation hl he hf, hz, .joined (hne (.operation hl he hf)) hs hs' hcomb⟩

namespace Substituted

variable {v e e' : Expr}

/-- A leaf stays where an operation is replaced. -/
theorem eq_of_leaf {op : Op} {l r : Expr} {x : Leaf}
    (h : Substituted (.operation op l r) v (.leaf x) e') : e' = .leaf x := by
  cases h with
  | replaced hc => cases hc
  | leaf _ => rfl

theorem of_leaf {op : Op} {l r : Expr} (x : Leaf) :
    Substituted (.operation op l r) v (.leaf x) (.leaf x) :=
  .leaf fun h => by cases h

/-- A combination with a variable is replaced as a whole, or else combined again from what its other
operand becomes. -/
theorem of_combines {op : Op} {l r z : Expr} {op' : Op} {x : Leaf}
    (h : Substituted (.operation op l r) v z e') (hz : Combines op' e (.leaf x) z)
    (hx : x.degree ≠ 0) :
    (z.Commuted (.operation op l r) ∧ e' = v) ∨
      (¬ z.Commuted (.operation op l r) ∧ ∃ y, Substituted (.operation op l r) v e y ∧
        Combines op' y (.leaf x) e') := by
  rcases hz.eq_or_eq hx with rfl | rfl
  · cases h with
    | replaced hc => exact .inl ⟨hc, rfl⟩
    | joined hc hl hr hjoin =>
      rw [hr.eq_of_leaf] at hjoin
      exact .inr ⟨hc, _, hl, hjoin⟩
  · cases h with
    | replaced hc => exact .inl ⟨hc, rfl⟩
    | joined hc hl hr hjoin =>
      rw [hl.eq_of_leaf] at hjoin
      exact .inr ⟨hc, _, hr, hjoin.symm⟩

end Substituted

/-! ## Accumulation -/

/-- Adds or multiplies the trees of a list one by one. -/
inductive Accumulates {α : Type} (op : Op) (f : α → Expr) (s : Expr) : List α → Expr → Prop
  | nil : Accumulates op f s [] s
  | snoc {xs : List α} {x : α} {e z : Expr} : Accumulates op f s xs e → Combines op e (f x) z →
      Accumulates op f s (xs ++ [x]) z

namespace Build

/-- Operands that are added or multiplied one by one. -/
theorem accumulate_spec {α : Type} {op : Op} {f : α → Expr} {s : Expr} {a : Arena} {start : Nat}
    {e : Expr} {xs ys : List α} {is : List Nat} (hstart : a.Unfolds start e)
    (he : Accumulates op f s xs e) (hys : List.Forall₂ (fun i y => a.Unfolds i (f y)) is ys) :
    ∃ k b, accumulate op start (is.map fun i => .circuit ⟨a.name, i⟩) a = .ok k b ∧ a.Extends b ∧
      ∃ z, b.Unfolds k z ∧ Accumulates op f s (xs ++ ys) z := by
  induction is generalizing a start e xs ys with
  | nil =>
    cases hys
    exact ⟨start, a, rfl, .refl a, e, hstart, by rwa [List.append_nil]⟩
  | cons i is ih =>
    cases hys with
    | @cons _ y _ ys hi hys =>
      obtain ⟨k, b, hk, hab, hjoin⟩ := combine_spec op hstart.lt hi.lt
      obtain ⟨z, hz, hcomb⟩ := hjoin.unfolds (hab.unfolds hstart) (hab.unfolds hi)
      obtain ⟨k', b', hk', hbb', z', hz', hacc⟩ :=
        ih hz (he.snoc hcomb) (hys.imp fun _ _ h => hab.unfolds h)
      rw [hab.name_eq] at hk'
      refine ⟨k', b', ?_, hab.trans hbb', z', hz', by rwa [List.append_cons]⟩
      rw [accumulate, List.map_cons, List.foldlM_cons,
        bind_of_ok (v := k) (t := b) (by rw [bind_of_ok (operand_circuit rfl), hk])]
      exact hk'

end Build

namespace Accumulates

variable {α : Type} {op : Op} {f : α → Expr} {s t v e e' : Expr} {xs ys : List α}

theorem exists_of_snoc {x : α} (h : Accumulates op f s (xs ++ [x]) e) :
    ∃ e₀, Accumulates op f s xs e₀ ∧ Combines op e₀ (f x) e := by
  generalize hl : xs ++ [x] = l at h
  cases h with
  | nil => simp at hl
  | snoc h hc =>
    obtain ⟨rfl, hx⟩ := List.append_inj' hl rfl
    cases hx
    exact ⟨_, h, hc⟩

/-- In a sum no product is replaced but within the summands. -/
theorem substituted {l r : Expr} {z : Leaf} {es : List Expr}
    (h : Accumulates .add id (.leaf z) es e) (hs : Substituted (.operation .mul l r) v e e') :
    ∃ es', List.Forall₂ (Substituted (.operation .mul l r) v) es es' ∧
      Accumulates .add id (.leaf z) es' e' := by
  induction h generalizing e' with
  | nil => exact ⟨[], .nil, hs.eq_of_leaf ▸ .nil⟩
  | snoc _ hc ih =>
    cases hc with
    | straight =>
      cases hs with
      | replaced hc => cases hc
      | joined _ hx hy hc =>
        obtain ⟨es', hes, hacc⟩ := ih hx
        exact ⟨es' ++ [_], List.rel_append hes (.cons hy .nil), hacc.snoc hc⟩
    | swapped =>
      cases hs with
      | replaced hc => cases hc
      | joined _ hx hy hc =>
        obtain ⟨es', hes, hacc⟩ := ih hy
        exact ⟨es' ++ [_], List.rel_append hes (.cons hx .nil), hacc.snoc hc.symm⟩
    | folded s t =>
      obtain rfl := hs.eq_of_leaf
      obtain ⟨es', hes, hacc⟩ := ih (.of_leaf (.constant s))
      exact ⟨es' ++ [_], List.rel_append hes (.cons (.of_leaf (.constant t)) .nil),
        hacc.snoc (.folded s t)⟩

end Accumulates

end AirCompiler
