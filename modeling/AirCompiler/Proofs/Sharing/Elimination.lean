import AirCompiler.Proofs.Assembly.Emission
import AirCompiler.Proofs.Sharing.Paths

/-!
# Every operation is evaluated once

Generated code binds the operations that more than one path leads to, and evaluates the constraints
with references to them. So an operation that is bound is evaluated by its binding alone, and one
that is not bound stands in a single place.

* `Arena.UnfoldsUpTo a bound i f`: `f` is the expression of node `i`, with references to the bound
  nodes.
* `Arena.UnfoldsUpTo.length_ops`: its operations are the occurrences of operations that are not
  bound.
* `BucketEvaluation.Bound.Steps`: every binding is a single operation on leaves and on references to
  earlier bindings.
* `Emitter.ops_bucketCode`: assembly performs the operations of the evaluation code, in the same
  order.
* `BucketEvaluation.operation_once`: both have one operation for each operation below the
  constraints.
-/

namespace AirCompiler

/-- The operations of an expression, in the order of their evaluation. -/
def Expr.ops : Expr → List Op
  | .leaf _ | .shared _ => []
  | .operation op x y => x.ops ++ y.ops ++ [op]

/-- The operation on extension elements that an instruction performs. -/
def Instruction.op? : Instruction → Option Op
  | .xxAdd => some .add
  | .xxMul => some .mul
  | _ => none

/-- The operations that code performs. -/
def Instruction.ops (code : Array Instruction) : List Op := code.toList.filterMap op?

/-- The expression is a leaf, or refers to one of the given nodes. -/
def Expr.IsAtom (nodes : List Int) : Expr → Prop
  | .leaf _ => True
  | .shared id => id ∈ nodes
  | .operation _ _ _ => False

theorem Expr.IsAtom.ops_eq_nil {nodes : List Int} {e : Expr} (h : e.IsAtom nodes) : e.ops = [] := by
  cases e with
  | leaf | shared => rfl
  | operation => cases h

/-- The binding is a single operation on leaves and on references to earlier bindings. -/
def Binding.IsStep (earlier : List Binding) (b : Binding) : Prop :=
  ∃ op x y, b.expr = .operation op x y ∧ x.IsAtom (earlier.map Binding.node) ∧
    y.IsAtom (earlier.map Binding.node)

/-- The operations of the bindings and of the outputs. -/
def BucketEvaluation.ops (b : BucketEvaluation) : List Op :=
  (b.bindings.flatMap fun x => x.expr.ops) ++ b.outputs.flatMap fun o => o.expr.ops

/-! ## Expressions with references -/

namespace Arena

/-- The node unfolds into the expression, up to the bound nodes. -/
inductive UnfoldsUpTo (a : Arena) (bound : Nat → Bool) : Nat → Expr → Prop
  | shared {i : Nat} (hb : bound i = true) (hi : i < a.size) : UnfoldsUpTo a bound i (.shared i)
  | leaf {i : Nat} {x : Leaf} (hb : bound i = false) (hl : a.label? i = some (.leaf x)) :
      UnfoldsUpTo a bound i (.leaf x)
  | operation {i l r : Nat} {op : Op} {x y : Expr} (hb : bound i = false)
      (hl : a.label? i = some (.binary op l r))
      (hx : UnfoldsUpTo a bound l x) (hy : UnfoldsUpTo a bound r y) :
        UnfoldsUpTo a bound i (.operation op x y)

variable {a : Arena} {bound : Nat → Bool} {i : Nat} {f : Expr}

theorem bound_eq_false {n : Node} (hn : a.node? i = some n)
    (hb : (Expr.visitor bound).bound n = none) : bound i = false := by
  simpa [Expr.visitor, id_of_node? hn] using hb

theorem unfoldsUpTo_of_expr? {n : Node} (hn : a.node? i = some n) (h : a.expr? bound n = some f) :
    a.UnfoldsUpTo bound i f := by
  refine fold_induction (P := a.UnfoldsUpTo bound) ?_ ?_ ?_ hn h
  · intro i n f hn hb
    simp only [Expr.visitor, id_of_node? hn] at hb
    split at hb
    · cases hb
      exact .shared ‹_› (lt_of_node? hn)
    · cases hb
  · intro i n x hn hb hl
    exact .leaf (bound_eq_false hn hb) hl
  · intro i n op l r x y hn hb hl hx hy
    exact .operation (bound_eq_false hn hb) hl hx hy

namespace UnfoldsUpTo

/-- A node is referred to, or it is a leaf, if it is bound whenever it is an operation. -/
theorem isAtom (h : a.UnfoldsUpTo bound i f) (hi : a.IsOperation i → bound i = true)
    {nodes : List Int} (hnodes : ∀ j : Nat, bound j = true → (j : Int) ∈ nodes) :
    f.IsAtom nodes := by
  cases h with
  | shared hb => exact hnodes i hb
  | leaf => trivial
  | operation hb hl =>
    rw [hi ⟨_, _, _, hl⟩] at hb
    cases hb

/-- If with an operation all operations below it are bound, then the expression has the occurrences
of the operations that are not bound. -/
theorem length_ops (h : a.UnfoldsUpTo bound i f)
    (hclosed : ∀ j k, bound j = true → a.Reaches j k → a.IsOperation k → bound k = true)
    {s : Finset Nat} (hs : ∀ j, a.Reaches i j → (j ∈ s ↔ a.IsOperation j ∧ bound j = false)) :
    f.ops.length = (a.occurrences i).countP (· ∈ s) := by
  induction h with
  | @shared i hb hi =>
    obtain ⟨e, he⟩ := exists_unfolds hi
    refine (List.countP_eq_zero.2 fun j hj => ?_).symm
    have hreach := (mem_occurrences he).1 hj
    rw [decide_eq_true_iff, hs j hreach]
    rintro ⟨hop, hnot⟩
    rw [hclosed i j hb hreach hop] at hnot
    cases hnot
  | @leaf i x hb hl =>
    have hi : i ∉ s := fun hi => not_isOperation_leaf hl ((hs i .refl).1 hi).1
    rw [occurrences_leaf hl, List.countP_singleton, if_neg (by simpa using hi)]
    rfl
  | @operation i l r op x y hb hl _ _ ihx ihy =>
    have hi : i ∈ s := (hs i .refl).2 ⟨⟨_, _, _, hl⟩, hb⟩
    have hx := ihx fun j hj => hs j ((reaches_binary hl).2 (.inr (.inl hj)))
    have hy := ihy fun j hj => hs j ((reaches_binary hl).2 (.inr (.inr hj)))
    rw [occurrences_binary hl, List.countP_cons_of_pos (by simpa using hi), List.countP_append,
      ← hx, ← hy, Expr.ops, List.length_append, List.length_append]
    rfl

end UnfoldsUpTo

end Arena

/-! ## Bindings -/

namespace BucketEvaluation

variable {a : Arena} {cs : List Circuit}

/-- The bindings so far bind the listed nodes, each by a single operation. -/
structure Bound.Steps (order : List Nat) (b : Bound) : Prop where
  contains_iff : ∀ j : Nat, b.scope.contains j = true ↔ j ∈ order
  nodes : b.bindings.toList.map Binding.node = order.map Int.ofNat
  isStep : ∀ earlier x later, b.bindings.toList = earlier ++ x :: later → x.IsStep earlier

theorem Bound.steps_empty : Bound.Steps [] ⟨.empty, #[]⟩ where
  contains_iff j := by simp [Scope.contains_empty]
  nodes := rfl
  isStep earlier x later h := by simp at h

/-- An operation is a step if its operands are leaves or bound. -/
theorem Bound.Steps.isStep_of_expr? {order : List Nat} {b : Bound} (hb : b.Steps order)
    {i : Nat} (hnew : i ∉ order) (hop : a.IsOperation i)
    (hoperand : ∀ j, a.HasOperand i j → a.IsOperation j → j ∈ order) {n : Node}
    (hn : a.node? i = some n) {f : Expr} (hf : a.expr? (fun id => b.scope.contains id) n = some f)
    (isBase : Bool) : (⟨i, f, isBase⟩ : Binding).IsStep b.bindings.toList := by
  have hnodes : ∀ j : Nat, b.scope.contains j = true →
      (j : Int) ∈ b.bindings.toList.map Binding.node := by
    intro j hj
    rw [hb.nodes]
    exact List.mem_map_of_mem ((hb.contains_iff j).1 hj)
  have hbound : ∀ j, a.HasOperand i j → a.IsOperation j → b.scope.contains j = true :=
    fun j hij hj => (hb.contains_iff j).2 (hoperand j hij hj)
  cases Arena.unfoldsUpTo_of_expr? hn hf with
  | shared hi => exact absurd ((hb.contains_iff i).1 hi) hnew
  | leaf _ hl => exact absurd hop (Arena.not_isOperation_leaf hl)
  | operation _ hl hx hy =>
    exact ⟨_, _, _, rfl, hx.isAtom (hbound _ ⟨_, _, _, hl, .inl rfl⟩) hnodes,
      hy.isAtom (hbound _ ⟨_, _, _, hl, .inr rfl⟩) hnodes⟩

theorem bindNode_steps {order : List Nat} {b b' : Bound} (hb : b.Steps order)
    {i : Nat} (hnew : i ∉ order) (hop : a.IsOperation i)
    (hoperand : ∀ j, a.HasOperand i j → a.IsOperation j → j ∈ order) (h : bindNode a b i = .ok b') :
    b'.Steps (order ++ [i]) := by
  unfold bindNode at h
  split at h
  · cases h
  · rename_i n hn
    obtain ⟨f, hf, h⟩ := exists_of_bind_eq_ok h
    obtain ⟨scope, hscope, h⟩ := exists_of_bind_eq_ok h
    cases h
    have hstep := hb.isStep_of_expr? hnew hop hoperand hn (exprIn_eq_ok.1 hf) n.isBase
    refine ⟨fun j => ?_, ?_, fun earlier x later hsplit => ?_⟩
    · rw [Scope.declare_eq_ok hscope, hb.contains_iff, List.mem_append,
        List.mem_singleton, Int.natCast_inj]
    · rw [Array.toList_push, List.map_append, List.map_append, hb.nodes]
      rfl
    · -- the binding is the new one, or stands before it
      rw [Array.toList_push] at hsplit
      rcases List.eq_nil_or_concat later with rfl | ⟨later, y, rfl⟩
      · obtain ⟨rfl, hx⟩ := List.append_inj' hsplit rfl
        cases hx
        exact hstep
      · rw [List.concat_eq_append, ← List.cons_append, ← List.append_assoc] at hsplit
        exact hb.isStep earlier x later (List.append_inj' hsplit rfl).1

theorem bindNodes_steps {counts : Counts} {order : List Nat} (horder : Plan.Ordered a counts order)
    {b : Bound} (h : order.foldlM (bindNode a) ⟨.empty, #[]⟩ = .ok b) : b.Steps order := by
  induction horder generalizing b with
  | nil =>
    cases h
    exact Bound.steps_empty
  | snoc _ hnew _ hop _ _ hoperand ih =>
    rw [List.foldlM_append] at h
    obtain ⟨b₁, h₁, h⟩ := exists_of_bind_eq_ok h
    rw [List.foldlM_cons] at h
    obtain ⟨b₂, h₂, h⟩ := exists_of_bind_eq_ok h
    cases h
    exact bindNode_steps (ih h₁) hnew hop hoperand h₂

theorem length_flatMap_steps {bindings : List Binding}
    (h : ∀ x ∈ bindings, ∃ earlier, x.IsStep earlier) :
    (bindings.flatMap fun x => x.expr.ops).length = bindings.length := by
  induction bindings with
  | nil => rfl
  | cons x bindings ih =>
    obtain ⟨earlier, op, y, z, hx, hy, hz⟩ := h x List.mem_cons_self
    rw [List.flatMap_cons, List.length_append, ih fun w hw => h w (List.mem_cons_of_mem x hw),
      hx, Expr.ops, hy.ops_eq_nil, hz.ops_eq_nil, List.length_cons, Nat.add_comm]
    rfl

theorem Bound.Steps.length_ops {order : List Nat} {b : Bound} (h : b.Steps order) :
    (b.bindings.toList.flatMap fun x => x.expr.ops).length = order.length := by
  have hlength := congrArg List.length h.nodes
  rw [List.length_map, List.length_map] at hlength
  rw [length_flatMap_steps, hlength]
  intro x hx
  obtain ⟨earlier, later, hsplit⟩ := List.append_of_mem hx
  exact ⟨earlier, h.isStep earlier x later hsplit⟩

end BucketEvaluation

/-! ## Counting -/

section

variable {a : Arena} {cs : List Circuit}

theorem mem_operations_iff_below (ha : ∀ c ∈ cs, c.arena = a) {i : Nat} :
    i ∈ operations cs ↔ Below a cs i ∧ a.IsOperation i := by
  rw [mem_operations]
  constructor
  · rintro ⟨c, hc, hreach, hop⟩
    rw [ha c hc] at hreach hop
    exact ⟨⟨c, hc, hreach⟩, hop⟩
  · rintro ⟨⟨c, hc, hreach⟩, hop⟩
    rw [← ha c hc] at hreach hop
    exact ⟨c, hc, hreach, hop⟩

/-- Members of a set that stand once each are as many as the set has. -/
theorem countP_mem_eq_card {xs : List Nat} {s : Finset Nat} (h : ∀ j ∈ s, xs.count j = 1) :
    xs.countP (· ∈ s) = s.card := by
  have hnodup : (xs.filter (· ∈ s)).Nodup := by
    refine List.nodup_iff_count_le_one.2 fun j => ?_
    by_cases hj : j ∈ s
    · rw [List.count_filter (by simpa using hj), h j hj]
    · rw [List.count_eq_zero_of_not_mem (by simp [hj])]
      exact Nat.zero_le 1
  have hset : (xs.filter (· ∈ s)).toFinset = s := by
    ext j
    rw [List.mem_toFinset, List.mem_filter, decide_eq_true_iff]
    exact ⟨And.right, fun hj => ⟨List.count_pos_iff.1 (by rw [h j hj]; exact Nat.one_pos), hj⟩⟩
  rw [List.countP_eq_length_filter, ← List.toFinset_card_of_nodup hnodup, hset]

/-- An operation that is not shared stands in one place. -/
theorem Plan.count_unshared (ha : ∀ c ∈ cs, c.arena = a) {plan : Plan}
    (h : Plan.ofCircuits cs = .ok plan) {j : Nat} (hj : j ∈ operations cs \ plan.order.toFinset) :
    (treeNodes a cs).count j = 1 := by
  obtain ⟨hcounted, -, hmem⟩ := spec_of_ofCircuits ha h
  obtain ⟨hop, hnot⟩ := Finset.mem_sdiff.1 hj
  obtain ⟨hbelow, hop⟩ := (mem_operations_iff_below ha).1 hop
  have hle : plan.counts.getD j 0 ≤ 1 := by
    by_contra hlt
    exact hnot (List.mem_toFinset.2 ((hmem j).2 ⟨hbelow, hop, by omega⟩))
  have hpos := List.count_pos_iff.2 ((mem_treeNodes ha).2 hbelow)
  rw [hcounted.getD_eq_count ha] at hle
  omega

theorem length_flatMap_ops {f : Circuit → Expr} {s : Finset Nat}
    (h : ∀ c ∈ cs, (f c).ops.length = (a.occurrences c.id).countP (· ∈ s)) :
    (cs.flatMap fun c => (f c).ops).length = (treeNodes a cs).countP (· ∈ s) := by
  induction cs with
  | nil => rfl
  | cons c cs ih =>
    rw [treeNodes, List.flatMap_cons, List.flatMap_cons, List.length_append, List.countP_append,
      h c List.mem_cons_self, ih fun d hd => h d (List.mem_cons_of_mem c hd), treeNodes]

theorem perm_treeNodes_outputOrder (a : Arena) (cs : List Circuit) :
    (treeNodes a (outputOrder cs)).Perm (treeNodes a cs) :=
  (List.filter_append_perm _ cs).flatMap_right _

/-- Evaluation code has as many operations as stand below the constraints. -/
theorem BucketEvaluation.length_ops (ha : ∀ c ∈ cs, c.arena = a) {role : Role}
    {b : BucketEvaluation} (h : ofCircuits role cs = .ok b) :
    b.ops.length = (operations cs).card := by
  obtain ⟨plan, bound, f, hplan, hbound, hbindings, houtputs, hf⟩ := exists_of_ofCircuits ha h
  obtain ⟨-, hordered, hmem⟩ := Plan.spec_of_ofCircuits ha hplan
  have hsteps := bindNodes_steps hordered hbound
  have hsub : plan.order.toFinset ⊆ operations cs := by
    intro i hi
    obtain ⟨hbelow, hop, -⟩ := (hmem i).1 (List.mem_toFinset.1 hi)
    exact (mem_operations_iff_below ha).2 ⟨hbelow, hop⟩
  have hclosed : ∀ j k : Nat, bound.scope.contains j = true → a.Reaches j k → a.IsOperation k →
      bound.scope.contains k = true := fun j k hj hreach hop =>
    (hsteps.contains_iff k).2 (hordered.reaches ((hsteps.contains_iff j).1 hj) hreach hop)
  -- what an output evaluates itself are the operations below it that are not shared
  have houtput : ∀ c ∈ outputOrder cs,
      (f c).ops.length = (a.occurrences c.id).countP (· ∈ operations cs \ plan.order.toFinset) := by
    intro c hc
    have hc := mem_outputOrder.1 hc
    refine (Arena.unfoldsUpTo_of_expr? (ha c hc ▸ c.node?_id) (hf c hc)).length_ops hclosed
      fun j hj => ?_
    rw [Finset.mem_sdiff, mem_operations_iff_below ha, List.mem_toFinset,
      ← hsteps.contains_iff, Bool.not_eq_true]
    exact ⟨fun h => ⟨h.1.2, h.2⟩, fun h => ⟨⟨⟨c, hc, hj⟩, h.1⟩, h.2⟩⟩
  calc b.ops.length
      = plan.order.length + ((outputOrder cs).flatMap fun c => (f c).ops).length := by
        rw [ops, List.length_append, hbindings, hsteps.length_ops, houtputs, List.flatMap_map]
    _ = plan.order.length + (treeNodes a cs).countP (· ∈ operations cs \ plan.order.toFinset) := by
        rw [length_flatMap_ops houtput, (perm_treeNodes_outputOrder a cs).countP_eq]
    _ = plan.order.toFinset.card + (operations cs \ plan.order.toFinset).card := by
        rw [countP_mem_eq_card fun j hj => Plan.count_unshared ha hplan hj,
          List.toFinset_card_of_nodup hordered.nodup]
    _ = (operations cs).card := by rw [Nat.add_comm, Finset.card_sdiff_add_card_eq_card hsub]

end

/-! ## Assembly -/

namespace Instruction

theorem ops_append (code more : Array Instruction) : ops (code ++ more) = ops code ++ ops more := by
  rw [ops, Array.toList_append, List.filterMap_append, ← ops, ← ops]

theorem ops_push_instruction (code : Array Instruction) (op : Op) :
    ops (code.push op.instruction) = ops code ++ [op] := by
  rw [ops, Array.toList_push, List.filterMap_append, ← ops]
  cases op <;> rfl

end Instruction

namespace Emitter

open Instruction (ops ops_append)

variable {e : Emitter} {a : Arena} {scope : Scope} {cs : List Circuit}

theorem ops_leafCode {x : Leaf} {code : Array Instruction} (h : e.leafCode x = .ok code) :
    ops code = [] := by
  cases x with
  | constant s =>
    cases h
    rfl
  | challenge i =>
    obtain ⟨offset, -, h⟩ := exists_of_bind_eq_ok h
    cases h
    rfl
  | input c =>
    simp only [leafCode, loadRowElement] at h
    cases he : e.mode with
    | static =>
      simp only [he] at h
      obtain ⟨offset, -, h⟩ := exists_of_bind_eq_ok h
      cases h
      rfl
    | dynamic =>
      simp only [he] at h
      obtain ⟨offset, -, h⟩ := exists_of_bind_eq_ok h
      split at h
      · cases h
      · cases h
        rfl

/-- The code of a node performs the operations of its expression. -/
theorem ops_of_fold {i : Nat} {f : Expr} (hf : a.UnfoldsUpTo (fun id => scope.contains id) i f)
    {n : Node} (hn : a.node? i = some n) {code : Array Instruction}
    (h : a.fold (e.visitor scope) n = some (.ok code)) : ops code = f.ops := by
  induction hf generalizing n code with
  | shared hb hi =>
    rw [Arena.fold_bound (x := e.loadShared n.id) (by simp [visitor, Arena.id_of_node? hn, hb]),
      Option.some.injEq] at h
    rw [(loadShared_eq_ok h).2]
    rfl
  | leaf hb hl =>
    rw [Arena.label?_of_node? hn, Option.some.injEq] at hl
    rw [Arena.fold_leaf (by simp [visitor, Arena.id_of_node? hn, hb]) hl, Option.some.injEq] at h
    exact ops_leafCode h
  | @operation i l r op x y hb hl hx hy ihx ihy =>
    obtain ⟨hl', hr'⟩ := Arena.operands_lt hl
    have hi := Arena.lt_of_node? hn
    obtain ⟨nl, hnl⟩ := Arena.exists_node? (hl'.trans hi)
    obtain ⟨nr, hnr⟩ := Arena.exists_node? (hr'.trans hi)
    rw [Arena.label?_of_node? hn, Option.some.injEq] at hl
    rw [Arena.fold_binary (by simp [visitor, Arena.id_of_node? hn, hb]) hl hnl hnr,
      Option.bind_eq_some_iff] at h
    obtain ⟨x', h₁, h⟩ := h
    obtain ⟨y', h₂, h⟩ := Option.map_eq_some_iff.1 h
    obtain ⟨code₁, hc₁, h⟩ := exists_of_bind_eq_ok h
    obtain ⟨code₂, hc₂, h⟩ := exists_of_bind_eq_ok h
    cases h
    rw [Instruction.ops_push_instruction, ops_append, ihx hnl (hc₁ ▸ h₁),
      ihy hnr (hc₂ ▸ h₂), Expr.ops]

theorem ops_nodeCode {i : Nat} {f : Expr} (hf : a.UnfoldsUpTo (fun id => scope.contains id) i f)
    {n : Node} (hn : a.node? i = some n) {code : Array Instruction}
    (h : e.nodeCode a scope n = .ok code) : ops code = f.ops := by
  unfold nodeCode at h
  split at h
  · rename_i result hr
    exact ops_of_fold hf hn (h ▸ hr)
  · cases h

theorem ops_storeCode (first : Argument) : ops (storeCode first) = [] := rfl

/-- One shared node is stored as it is bound. -/
theorem ops_emitShared {i : Nat} {done done' : Emitted} {b b' : BucketEvaluation.Bound}
    (hscope : done.scope = b.scope)
    (hops : ops done.code = b.bindings.toList.flatMap fun x => x.expr.ops)
    (h : e.emitShared a done i = .ok done') (hb : BucketEvaluation.bindNode a b i = .ok b') :
    done'.scope = b'.scope ∧ ops done'.code = b'.bindings.toList.flatMap fun x => x.expr.ops := by
  unfold emitShared at h
  unfold BucketEvaluation.bindNode at hb
  split at h
  · cases h
  · rename_i n hn
    simp only [hn] at hb
    obtain ⟨f, hf, hb⟩ := exists_of_bind_eq_ok hb
    obtain ⟨scope, hdeclare, hb⟩ := exists_of_bind_eq_ok hb
    cases hb
    obtain ⟨code, hcode, h⟩ := exists_of_bind_eq_ok h
    obtain ⟨store, hstore, h⟩ := exists_of_bind_eq_ok h
    obtain ⟨scope', hdeclare', h⟩ := exists_of_bind_eq_ok h
    cases h
    rw [hscope] at hcode hdeclare'
    obtain rfl := Except.ok.inj (hdeclare'.symm.trans hdeclare)
    obtain ⟨-, rfl⟩ := storeShared_eq_ok hstore
    have hnode :=
      ops_nodeCode (Arena.unfoldsUpTo_of_expr? hn (BucketEvaluation.exprIn_eq_ok.1 hf)) hn hcode
    refine ⟨rfl, ?_⟩
    rw [ops_append, ops_append, ops_storeCode, List.append_nil, hops, hnode, Array.toList_push,
      List.flatMap_append, List.flatMap_singleton]

theorem ops_emitShareds {order : List Nat} {done done' : Emitted} {b b' : BucketEvaluation.Bound}
    (hscope : done.scope = b.scope)
    (hops : ops done.code = b.bindings.toList.flatMap fun x => x.expr.ops)
    (h : order.foldlM (e.emitShared a) done = .ok done')
    (hb : order.foldlM (BucketEvaluation.bindNode a) b = .ok b') :
    done'.scope = b'.scope ∧ ops done'.code = b'.bindings.toList.flatMap fun x => x.expr.ops := by
  induction order generalizing done b with
  | nil =>
    cases h
    cases hb
    exact ⟨hscope, hops⟩
  | cons i order ih =>
    obtain ⟨done₁, h₁, h⟩ := exists_of_bind_eq_ok h
    obtain ⟨b₁, hb₁, hb⟩ := exists_of_bind_eq_ok hb
    obtain ⟨hscope₁, hops₁⟩ := ops_emitShared hscope hops h₁ hb₁
    exact ih hscope₁ hops₁ h hb

theorem ops_emitOutputs (ha : ∀ c ∈ cs, c.arena = a) {f : Circuit → Expr}
    (hf : ∀ c ∈ cs, a.expr? (fun id => scope.contains id) c.node = some (f c)) {index : Int}
    {done code : Array Instruction} (h : e.emitOutputs a scope index cs done = .ok code) :
    ops code = ops done ++ cs.flatMap fun c => (f c).ops := by
  induction cs generalizing index done with
  | nil =>
    cases h
    rw [List.flatMap_nil, List.append_nil]
  | cons c cs ih =>
    rw [emitOutputs] at h
    obtain ⟨node, hnode, h⟩ := exists_of_bind_eq_ok h
    obtain ⟨store, hstore, h⟩ := exists_of_bind_eq_ok h
    obtain ⟨-, rfl⟩ := storeOutput_eq_ok hstore
    have hn : a.node? c.id = some c.node := ha c List.mem_cons_self ▸ c.node?_id
    have hops := ops_nodeCode (Arena.unfoldsUpTo_of_expr? hn (hf c List.mem_cons_self)) hn hnode
    rw [ih (fun d hd => ha d (List.mem_cons_of_mem c hd))
      (fun d hd => hf d (List.mem_cons_of_mem c hd)) h, ops_append,
      ops_append, ops_storeCode, List.append_nil, hops, List.flatMap_cons, List.append_assoc]

/-- Assembly performs the operations of the evaluation code, in the same order. -/
theorem ops_bucketCode (ha : ∀ c ∈ cs, c.arena = a) {role : Role} {b : BucketEvaluation}
    (hb : BucketEvaluation.ofCircuits role cs = .ok b) {first : Int} {code : Array Instruction}
    (h : e.bucketCode cs first = .ok code) : ops code = b.ops := by
  obtain ⟨plan, bound, f, hplan, hbound, hbindings, houtputs, hf⟩ :=
    BucketEvaluation.exists_of_ofCircuits ha hb
  cases cs with
  | nil =>
    cases h
    cases hb
    rfl
  | cons c rest =>
    obtain ⟨plan', hplan', h⟩ := exists_of_bind_eq_ok h
    obtain ⟨shared, hshared, houts⟩ := exists_of_bind_eq_ok h
    obtain rfl := Except.ok.inj (hplan.symm.trans hplan')
    rw [ha c List.mem_cons_self] at hshared houts
    obtain ⟨hscope, hops⟩ := ops_emitShareds rfl rfl hshared hbound
    rw [hscope] at houts
    rw [ops_emitOutputs (fun d hd => ha d (mem_outputOrder.1 hd))
      (fun d hd => hf d (mem_outputOrder.1 hd)) houts, hops,
      BucketEvaluation.ops, hbindings, houtputs, List.flatMap_map]

end Emitter

namespace BucketEvaluation

variable {a : Arena} {cs : List Circuit}

/-- Constraints of one arena have evaluation code, with one operation for each operation below them.
Every binding is a single operation on leaves and on references to earlier bindings. Assembly, where
there is any, has as many operations. -/
theorem operation_once (role : Role) (ha : ∀ c ∈ cs, c.arena = a) :
    ∃ b, ofCircuits role cs = .ok b ∧ b.ops.length = (operations cs).card ∧
      (∀ earlier x later, b.bindings = earlier ++ x :: later → x.IsStep earlier) ∧
      ∀ (e : Emitter) (first : Int) (code : Array Instruction), e.bucketCode cs first = .ok code →
        (Instruction.ops code).length = (operations cs).card := by
  obtain ⟨b, hb⟩ := exists_ofCircuits ha role
  have hlength := length_ops ha hb
  refine ⟨b, hb, hlength, ?_, fun e first code hcode => ?_⟩
  · obtain ⟨plan, bound, -, hplan, hbound, hbindings, -, -⟩ := exists_of_ofCircuits ha hb
    obtain ⟨-, hordered, -⟩ := Plan.spec_of_ofCircuits ha hplan
    rw [hbindings]
    exact (bindNodes_steps hordered hbound).isStep
  · rw [Emitter.ops_bucketCode ha hb hcode, hlength]

/-- The consistency constraints of `synthetic`, with dynamic addressing. -/
theorem operation_once_synthetic :
    let cs := ConstraintSystem.synthetic.circuits .consistency
    (∀ c ∈ cs, c.arena = ConstraintSystem.synthetic.arena) ∧ (operations cs).card = 18 ∧
      ∃ b code, ofCircuits .consistency cs = .ok b ∧
        (⟨.dynamic, .small⟩ : Emitter).bucketCode cs 0 = .ok code ∧
        b.ops.length = 18 ∧
        (∀ earlier x later, b.bindings = earlier ++ x :: later → x.IsStep earlier) ∧
        (Instruction.ops code).length = 18 := by
  intro cs
  have ha : ∀ c ∈ cs, c.arena = ConstraintSystem.synthetic.arena :=
    fun c hc => ConstraintSystem.arena_of_mem_circuits hc
  have hcard : (operations cs).card = 18 := by decide +kernel
  obtain ⟨b, hb, hops, hsteps, hassembly⟩ := operation_once .consistency ha
  rw [hcard] at hops hassembly
  have hok : ((⟨.dynamic, .small⟩ : Emitter).bucketCode cs 0).isOk = true := by decide +kernel
  cases hcode : (⟨.dynamic, .small⟩ : Emitter).bucketCode cs 0 with
  | error err =>
    rw [hcode] at hok
    cases hok
  | ok code => exact ⟨ha, hcard, b, code, hb, rfl, hops, hsteps, hassembly _ _ _ hcode⟩

end BucketEvaluation

end AirCompiler
