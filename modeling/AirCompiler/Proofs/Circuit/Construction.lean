import AirCompiler.Proofs.Circuit.Canonical

/-!
# What construction means

`Arena.value? a ρ i` is the value of node `i` under the assignment `ρ`, by recursion over its tree
(`value?_leaf`, `value?_binary`).

* `Build.Yields x a ρ v`: in the arena `a` the construction `x` succeeds, and the node it returns
  has the value `v`. It composes along the steps of a construction (`Yields.bind`), so every
  operation is one lemma over `combine_yields`.
* `Build.Grows x`: the construction extends every arena, also where it fails. It composes in the
  same way.
* `Arena.constructs`: sums, differences, products and powers have the values they should have, and
  nothing that is built or refused changes an existing node.
-/

namespace AirCompiler

/-! ## Values -/

namespace Arena

/-- The value of a node: that of the tree it unfolds into. -/
def value? (a : Arena) (ρ : Assignment) (i : Nat) : Option Ext :=
  (a.circuit? i).map fun c => c.expr.value ρ

variable {a b : Arena} {ρ : Assignment} {i : Nat}

theorem Unfolds.value? {e : Expr} (h : a.Unfolds i e) (ρ : Assignment) :
    a.value? ρ i = some (e.value ρ) := by
  obtain ⟨c, hc, rfl⟩ := h.exists_circuit
  rw [Arena.value?, hc, Option.map_some]

theorem exists_unfolds_of_value? {v : Ext} (h : a.value? ρ i = some v) :
    ∃ e, a.Unfolds i e ∧ e.value ρ = v := by
  obtain ⟨c, hc, rfl⟩ := Option.map_eq_some_iff.1 h
  obtain ⟨rfl, rfl⟩ := circuit?_eq_some.1 hc
  exact ⟨c.expr, c.unfolds_expr, rfl⟩

theorem value?_leaf {x : Leaf} (h : a.label? i = some (.leaf x)) :
    a.value? ρ i = some (x.value ρ) :=
  Unfolds.value? (.leaf h) ρ

theorem value?_binary {op : Op} {l r : Nat} (h : a.label? i = some (.binary op l r)) :
    a.value? ρ i = (a.value? ρ l).bind fun u => (a.value? ρ r).map fun v => op.onExt u v := by
  obtain ⟨hl, hr⟩ := operands_lt h
  have hi := lt_of_label? h
  obtain ⟨x, hx⟩ := exists_unfolds (a := a) (i := l) (by omega)
  obtain ⟨y, hy⟩ := exists_unfolds (a := a) (i := r) (by omega)
  rw [hx.value?, hy.value?, (Unfolds.operation h hx hy).value?]
  rfl

theorem Extends.value?_eq (h : a.Extends b) (hi : i < a.size) : b.value? ρ i = a.value? ρ i := by
  obtain ⟨e, he⟩ := exists_unfolds hi
  rw [he.value?, (h.unfolds he).value?]

theorem Extends.value? (h : a.Extends b) {v : Ext} (hv : a.value? ρ i = some v) :
    b.value? ρ i = some v := by
  obtain ⟨e, he, rfl⟩ := exists_unfolds_of_value? hv
  exact (h.unfolds he).value? ρ

theorem Joins.value? {op : Op} {j k : Nat} {u v : Ext} (h : a.Joins op i j k)
    (hu : a.value? ρ i = some u) (hv : a.value? ρ j = some v) :
    a.value? ρ k = some (op.onExt u v) := by
  obtain ⟨x, hx, rfl⟩ := exists_unfolds_of_value? hu
  obtain ⟨y, hy, rfl⟩ := exists_unfolds_of_value? hv
  obtain ⟨z, hz, hcomb⟩ := h.unfolds hx hy
  rw [hz.value?, hcomb.value_eq]

end Arena

/-- The value of an operand. A circuit has one if it is a node of the arena; an integer stands for
its class in the base field. -/
def Operand.value? (a : Arena) (ρ : Assignment) : Operand → Option Ext
  | .circuit h => if h.owner = a.name then a.value? ρ h.id else none
  | .value v => v.toScalar?.map Scalar.lift

theorem Arena.Extends.operand {a b : Arena} (h : a.Extends b) {ρ : Assignment}
    {x : Operand} {u : Ext} (hx : x.value? a ρ = some u) : x.value? b ρ = some u := by
  cases x with
  | circuit c =>
    simp only [Operand.value?, h.name_eq] at hx ⊢
    split at hx
    · rw [if_pos ‹_›, h.value? hx]
    · cases hx
  | value v => exact hx

namespace Build

variable {a b : Arena} {ρ : Assignment} {u v : Ext}

/-! ## Growth -/

/-- The arena that a computation leaves, whether it succeeds or fails. -/
def left {α : Type} (x : Build α) (a : Arena) : Arena :=
  match x a with
  | .ok _ b => b
  | .error _ b => b

/-- The computation extends every arena. -/
def Grows {α : Type} (x : Build α) : Prop := ∀ a : Arena, a.Extends (x.left a)

section

variable {α β : Type} {x : Build α}

theorem left_of_ok {w : α} (h : x a = .ok w b) : x.left a = b := by simp [left, h]

theorem left_of_error {e : BuildError} (h : x a = .error e b) : x.left a = b := by simp [left, h]

namespace Grows

theorem pure (w : α) : Grows (pure w) := fun a => .refl a

theorem throw (e : BuildError) : Grows (throw e : Build α) := fun a => .refl a

theorem bind {f : α → Build β} (hx : Grows x) (hf : ∀ w, Grows (f w)) : Grows (x >>= f) := by
  intro a
  have ha := hx a
  cases h : x a with
  | ok w b =>
    rw [left_of_ok h] at ha
    have hb := hf w b
    rw [left, bind_of_ok h]
    exact ha.trans hb
  | error e b =>
    rw [left_of_error h] at ha
    rwa [left_of_error (bind_of_error h)]

theorem foldlM {f : β → α → Build β} (hf : ∀ w y, Grows (f w y)) (ys : List α) (w : β) :
    Grows (ys.foldlM f w) := by
  induction ys generalizing w with
  | nil => exact pure w
  | cons y ys ih =>
    rw [List.foldlM_cons]
    exact bind (hf w y) ih

theorem discard (hx : Grows x) : Grows (discard x) := by
  intro a
  have ha := hx a
  unfold left at ha ⊢
  simp only [Functor.discard, Functor.mapConst, EStateM.map, Function.comp_def]
  cases h : x a <;> simp only [h] at ha ⊢ <;> exact ha

theorem leaf (y : Leaf) : Grows (leaf y) := by
  intro a
  obtain ⟨i, b, h, hab, -⟩ := leaf_spec a y
  rwa [left_of_ok h]

theorem combine (op : Op) (l r : Nat) : Grows (combine op l r) := by
  intro a
  by_cases h : l < a.size ∧ r < a.size
  · obtain ⟨i, b, hc, hab, -⟩ := combine_spec op h.1 h.2
    rwa [left_of_ok hc]
  · have hc : Build.combine op l r a = .error .unknownNode a := dif_neg h
    rw [left_of_error hc]
    exact .refl a

theorem operand (y : Operand) : Grows (operand y) := by
  rcases y with h | (s | n | kind)
  · intro a
    by_cases ho : h.owner = a.name
    · rw [left_of_ok (operand_circuit ho)]
      exact .refl a
    · rw [left_of_error
        (show Build.operand (.circuit h) a = .error .foreignCircuit a from if_neg ho)]
      exact .refl a
  · exact leaf _
  · exact leaf _
  · exact throw _

theorem binop (op : Op) (y z : Operand) : Grows (binop op y z) :=
  (operand y).bind fun _ => (operand z).bind fun _ => combine op _ _

theorem neg (i : Nat) : Grows (neg i) := (leaf _).bind fun _ => combine .mul _ i

theorem sub (y z : Operand) : Grows (sub y z) :=
  (operand y).bind fun _ => (operand z).bind fun _ => (neg _).bind fun _ => combine .add _ _

theorem pow (i : Nat) (e : Int) : Grows (pow i e) := by
  have htimes : ∀ n result, Grows (timesPower i n result) := by
    intro n
    induction n with
    | zero => exact fun result => pure result
    | succ n ih => exact fun result => (combine .mul result i).bind ih
  unfold Build.pow
  split
  · exact throw _
  · exact htimes _ i

theorem accumulate (op : Op) (start : Nat) (ys : List Operand) : Grows (accumulate op start ys) :=
  foldlM (fun acc y => (operand y).bind fun i => combine op acc i) ys start

theorem rebuild (own : Nat) (done : Rebuilt) (n : Node) : Grows (rebuild own done n) := by
  unfold Build.rebuild
  split
  · exact pure _
  · split
    · split
      · exact pure _
      · exact (binop _ _ _).bind fun _ => pure _
    · exact throw _

theorem rebuildRoot (own : Nat) (done : Rebuilt) (root : Nat) :
    Grows (rebuildRoot own done root) := by
  intro a
  by_cases hd : done.contains root = true
  · rw [left_of_ok (show Build.rebuildRoot own done root a = .ok done a from if_pos hd)]
    exact .refl a
  · cases hn : a.node? root with
    | none =>
      have h : Build.rebuildRoot own done root a = .error .unknownNode a := by
        simp [Build.rebuildRoot, hd, hn]
      rw [left_of_error h]
      exact .refl a
    | some n =>
      have h : Build.rebuildRoot own done root a =
          ((a.postorder done.contains n).foldlM (Build.rebuild own) done : Build Rebuilt) a := by
        simp [Build.rebuildRoot, hd, hn]
      rw [left, h]
      exact foldlM (rebuild own) _ done a

theorem substitute (roots : List Nat) (target : Int) (replacement : Handle) :
    Grows (substitute roots target replacement) :=
  fun a =>
    (foldlM (rebuildRoot a.name) roots (replacing target replacement)).bind (fun _ => pure _) a

end Grows

end

/-! ## Values of constructions -/

/-- In the arena the construction succeeds, and the node that it returns has the value. -/
def Yields (x : Build Nat) (a : Arena) (ρ : Assignment) (v : Ext) : Prop :=
  ∃ k b, x a = .ok k b ∧ a.Extends b ∧ b.value? ρ k = some v

theorem Yields.bind {x : Build Nat} {f : Nat → Build Nat} (hx : x.Yields a ρ u)
    (hf : ∀ k b, a.Extends b → b.value? ρ k = some u → (f k).Yields b ρ v) :
    Yields (x >>= f) a ρ v := by
  obtain ⟨k, b, hk, hab, hu⟩ := hx
  obtain ⟨m, c, hm, hbc, hv⟩ := hf k b hab hu
  exact ⟨m, c, by rw [bind_of_ok hk, hm], hab.trans hbc, hv⟩

theorem leaf_yields (a : Arena) (ρ : Assignment) (x : Leaf) : (leaf x).Yields a ρ (x.value ρ) := by
  obtain ⟨i, b, h, hab, hi⟩ := leaf_spec a x
  exact ⟨i, b, h, hab, Arena.value?_leaf hi⟩

theorem combine_yields (op : Op) {l r : Nat} (hl : a.value? ρ l = some u)
    (hr : a.value? ρ r = some v) : (combine op l r).Yields a ρ (op.onExt u v) := by
  obtain ⟨x, hx, -⟩ := Arena.exists_unfolds_of_value? hl
  obtain ⟨y, hy, -⟩ := Arena.exists_unfolds_of_value? hr
  obtain ⟨i, b, h, hab, hi⟩ := combine_spec op hx.lt hy.lt
  exact ⟨i, b, h, hab, hi.value? (hab.value? hl) (hab.value? hr)⟩

theorem operand_yields {x : Operand} (hx : x.value? a ρ = some u) : (operand x).Yields a ρ u := by
  rcases x with h | (s | n | kind)
  · simp only [Operand.value?] at hx
    split at hx
    · exact ⟨h.id, a, operand_circuit ‹_›, .refl a, hx⟩
    · cases hx
  · cases hx
    exact leaf_yields a ρ (.constant s)
  · cases hx
    exact leaf_yields a ρ (.constant (.base (.ofInt n)))
  · cases hx

theorem binop_yields (op : Op) {x y : Operand} (hx : x.value? a ρ = some u)
    (hy : y.value? a ρ = some v) : (binop op x y).Yields a ρ (op.onExt u v) := by
  refine (operand_yields hx).bind fun l b hab hl => ?_
  refine (operand_yields (hab.operand hy)).bind fun r c hbc hr => ?_
  exact combine_yields op (hbc.value? hl) hr

theorem neg_yields {i : Nat} (hi : a.value? ρ i = some u) : (neg i).Yields a ρ (-u) := by
  refine (leaf_yields a ρ (.constant (.base .minusOne))).bind fun m b hab hm => ?_
  have h := combine_yields .mul hm (hab.value? hi)
  rwa [Leaf.value, Scalar.lift_minusOne, Op.onExt, neg_one_mul] at h

theorem difference_yields {l r : Nat} (hl : a.value? ρ l = some u) (hr : a.value? ρ r = some v) :
    (difference l r).Yields a ρ (u - v) := by
  rw [sub_eq_add_neg]
  exact (neg_yields hr).bind fun n b hab hn => combine_yields .add (hab.value? hl) hn

theorem sub_yields {x y : Operand} (hx : x.value? a ρ = some u) (hy : y.value? a ρ = some v) :
    (sub x y).Yields a ρ (u - v) := by
  refine (operand_yields hx).bind fun l b hab hl => ?_
  refine (operand_yields (hab.operand hy)).bind fun r c hbc hr => ?_
  exact difference_yields (hbc.value? hl) hr

theorem timesPower_yields {i result : Nat} (n : Nat) (hr : a.value? ρ result = some u)
    (hi : a.value? ρ i = some v) : (timesPower i n result).Yields a ρ (u * v ^ n) := by
  induction n generalizing a u result with
  | zero => exact ⟨result, a, rfl, .refl a, by rw [hr, pow_zero, mul_one]⟩
  | succ n ih =>
    rw [pow_succ', ← mul_assoc]
    exact (combine_yields .mul hr hi).bind fun next b hab hnext => ih hnext (hab.value? hi)

theorem pow_yields {i : Nat} {e : Int} (he : 1 ≤ e) (hi : a.value? ρ i = some u) :
    (pow i e).Yields a ρ (u ^ e.toNat) := by
  rw [pow, if_neg (by omega), show e.toNat = (e - 1).toNat + 1 by omega, pow_succ']
  exact timesPower_yields _ hi hi

theorem accumulate_yields (op : Op) {start : Nat} {xs : List Operand} {us : List Ext}
    (hstart : a.value? ρ start = some u)
    (hxs : List.Forall₂ (fun x w => x.value? a ρ = some w) xs us) :
    (accumulate op start xs).Yields a ρ (us.foldl op.onExt u) := by
  unfold accumulate
  induction xs generalizing a u start us with
  | nil =>
    cases hxs
    exact ⟨start, a, rfl, .refl a, hstart⟩
  | cons x xs ih =>
    cases hxs with
    | cons hx hxs =>
      rw [List.foldlM_cons, List.foldl_cons]
      refine Yields.bind
        ((operand_yields hx).bind fun r b hab hr => combine_yields op (hab.value? hstart) hr) ?_
      exact fun next b hab hnext => ih hnext (hxs.imp fun _ _ h => hab.operand h)

theorem sum_yields {xs : List Operand} {us : List Ext}
    (hxs : List.Forall₂ (fun x w => x.value? a ρ = some w) xs us) : (sum xs).Yields a ρ us.sum := by
  refine (leaf_yields a ρ (.constant (.base 0))).bind fun start b hab hstart => ?_
  have h := accumulate_yields .add hstart (hxs.imp fun _ _ h => hab.operand h)
  rwa [List.sum_eq_foldl]

theorem product_yields {xs : List Operand} {us : List Ext}
    (hxs : List.Forall₂ (fun x w => x.value? a ρ = some w) xs us) :
    (product xs).Yields a ρ us.prod := by
  refine (leaf_yields a ρ (.constant (.base 1))).bind fun start b hab hstart => ?_
  have h := accumulate_yields .mul hstart (hxs.imp fun _ _ h => hab.operand h)
  rwa [List.prod_eq_foldl]

end Build

/-! ## Construction -/

namespace Arena

theorem extends_after (a : Arena) (c : Command) : a.Extends (a.after c) := by
  have hgrows : c.build.Grows := by
    cases c with
    | leaf x => exact (Build.Grows.leaf x).discard
    | operand x => exact (Build.Grows.operand x).discard
    | binop op x y => exact (Build.Grows.binop op x y).discard
    | neg i => exact (Build.Grows.neg i).discard
    | sub x y => exact (Build.Grows.sub x y).discard
    | pow i e => exact (Build.Grows.pow i e).discard
    | sum xs => exact ((Build.Grows.leaf _).bind fun _ => Build.Grows.accumulate .add _ xs).discard
    | product xs =>
      exact ((Build.Grows.leaf _).bind fun _ => Build.Grows.accumulate .mul _ xs).discard
    | substitute roots target replacement =>
      exact (Build.Grows.substitute roots target replacement).discard
  have h := hgrows a
  unfold after
  unfold Build.left at h
  cases hc : c.build a <;> simpa only [hc] using h

/-- What nodes are worth in an arena under an assignment, and what construction does. -/
structure Constructs (a : Arena) (ρ : Assignment) : Prop where
  leaf : ∀ i x, a.label? i = some (.leaf x) → a.value? ρ i = some (x.value ρ)
  binary : ∀ i op l r, a.label? i = some (.binary op l r) →
    a.value? ρ i = (a.value? ρ l).bind fun u => (a.value? ρ r).map fun v => op.onExt u v
  add : ∀ x y u v, x.value? a ρ = some u → y.value? a ρ = some v →
    (Build.binop .add x y).Yields a ρ (u + v)
  mul : ∀ x y u v, x.value? a ρ = some u → y.value? a ρ = some v →
    (Build.binop .mul x y).Yields a ρ (u * v)
  sub : ∀ x y u v, x.value? a ρ = some u → y.value? a ρ = some v →
    (Build.sub x y).Yields a ρ (u - v)
  neg : ∀ i u, a.value? ρ i = some u → (Build.neg i).Yields a ρ (-u)
  pow : ∀ i u e, a.value? ρ i = some u → 1 ≤ e → (Build.pow i e).Yields a ρ (u ^ e.toNat)
  sum : ∀ xs us, List.Forall₂ (fun x u => x.value? a ρ = some u) xs us →
    (Build.sum xs).Yields a ρ us.sum
  product : ∀ xs us, List.Forall₂ (fun x u => x.value? a ρ = some u) xs us →
    (Build.product xs).Yields a ρ us.prod
  /-- Every operation, also one that fails, keeps all nodes but for counts that grow, and so their
  values. -/
  kept : ∀ c, a.Extends (a.after c) ∧ ∀ i < a.size, (a.after c).value? ρ i = a.value? ρ i

/-- Construction means what it says, in every arena and under every assignment. -/
theorem constructs (a : Arena) (ρ : Assignment) : a.Constructs ρ where
  leaf _ _ h := value?_leaf h
  binary _ _ _ _ h := value?_binary h
  add _ _ _ _ hx hy := Build.binop_yields .add hx hy
  mul _ _ _ _ hx hy := Build.binop_yields .mul hx hy
  sub _ _ _ _ hx hy := Build.sub_yields hx hy
  neg _ _ hi := Build.neg_yields hi
  pow _ _ _ hi he := Build.pow_yields he hi
  sum _ _ hxs := Build.sum_yields hxs
  product _ _ hxs := Build.product_yields hxs
  kept c := ⟨a.extends_after c, fun _ hi => (a.extends_after c).value?_eq hi⟩

end Arena

end AirCompiler
