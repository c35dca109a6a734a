import AirCompiler.Proofs.Circuit.Reach
import AirCompiler.System.Samples

/-!
# Traversals as recursions

Both traversals run on a list of open tasks. What they come to is a recursion over the circuit,
which goes to the operands of an operation as circuits of their own (`Circuit.operand`).

* `Circuit.visit` is the recursion of a fold. `Circuit.foldM_node`: for visits in any monad the fold
  is the recursion, so it makes the same visits in the same order.
* `Circuit.listFrom` is the recursion of a walk. `Circuit.exists_walkTasks_node`: to enter a circuit
  is to list what the recursion lists, whatever tasks are open after it.
* `Circuit.traversals_eq_recursions`: both together, with what the recursion of a walk lists, and in
  which order.
-/

namespace AirCompiler

namespace Circuit

/-- The circuit of a node before the root. -/
def operand (c : Circuit) (i : Nat) (h : i < c.id) : Circuit := ⟨c.arena, i, Nat.lt_trans h c.isLt⟩

theorem operands_lt {c : Circuit} {op : Op} {l r : Nat} (h : c.node.label = .binary op l r) :
    l < c.id ∧ r < c.id :=
  Arena.operands_lt (h ▸ c.label?_id)

theorem node?_operand (c : Circuit) {i : Nat} (h : i < c.id) :
    c.arena.node? i = some (c.operand i h).node :=
  (c.operand i h).node?_id

theorem id_node (c : Circuit) : c.node.id = c.id := Arena.id_of_node? c.node?_id

/-! ## Folds -/

section

variable {m : Type → Type} [Monad m] {α : Type}

/-- Visits a circuit: a bound node as it is, and any other after its operands, left one first. -/
def visit (v : VisitorM m α) (c : Circuit) : m α := do
  match ← v.bound c.node with
  | some x => return x
  | none =>
    match h : c.node.label with
    | .leaf x => v.leaf c.node x
    | .binary op l r =>
      let x ← (c.operand l (operands_lt h).1).visit v
      let y ← (c.operand r (operands_lt h).2).visit v
      v.operation c.node op x y
termination_by c.id
decreasing_by
  · exact (operands_lt h).1
  · exact (operands_lt h).2

theorem visit_leaf (v : VisitorM m α) {c : Circuit} {x : Leaf} (h : c.node.label = .leaf x) :
    c.visit v = v.bound c.node >>= fun b => b.elim (v.leaf c.node x) pure := by
  rw [visit]
  congr 1
  funext b
  cases b with
  | some y => rfl
  | none =>
    simp only [Option.elim]
    split
    · rename_i hy
      cases h.symm.trans hy
      rfl
    · rename_i hy
      cases h.symm.trans hy

theorem visit_binary (v : VisitorM m α) {c : Circuit} {op : Op} {l r : Nat}
    (h : c.node.label = .binary op l r) :
    c.visit v = v.bound c.node >>= fun b => b.elim
      ((c.operand l (operands_lt h).1).visit v >>= fun x =>
      (c.operand r (operands_lt h).2).visit v >>= fun y => v.operation c.node op x y) pure := by
  rw [visit]
  congr 1
  funext b
  cases b with
  | some y => rfl
  | none =>
    simp only [Option.elim]
    split
    · rename_i hy
      cases h.symm.trans hy
    · rename_i hy
      cases h.symm.trans hy
      rfl

variable [LawfulMonad m]

theorem lift_bind_elim (b : m (Option α)) (x : m α) :
    OptionT.lift (b >>= fun o => o.elim x pure) =
      OptionT.lift b >>= fun o => o.elim (OptionT.lift x) pure := by
  rw [OptionT.lift_bind]
  congr 1
  funext o
  cases o with
  | some y => exact OptionT.lift_pure y
  | none => rfl

/-- A fold over a circuit is its recursion, and has a value. -/
theorem foldM_node (v : VisitorM m α) (c : Circuit) :
    c.arena.foldM v c.node = OptionT.lift (c.visit v) := by
  induction hk : c.id using Nat.strongRecOn generalizing c with
  | ind k ih =>
    subst hk
    cases h : c.node.label with
    | leaf x => rw [Arena.foldM_leaf h, visit_leaf v h, lift_bind_elim]
    | binary op l r =>
      obtain ⟨hl, hr⟩ := operands_lt h
      have ihl : c.arena.foldM v (c.operand l hl).node = _ := ih l hl (c.operand l hl) rfl
      have ihr : c.arena.foldM v (c.operand r hr).node = _ := ih r hr (c.operand r hr) rfl
      rw [Arena.foldM_binary h (c.node?_operand hl) (c.node?_operand hr), ihl, ihr,
        visit_binary v h, lift_bind_elim]
      simp only [OptionT.lift_bind]

end

/-! ## Walks -/

/-- Lists the nodes of a circuit that are not listed yet: the operands of an operation, left one
first, and then the root. -/
def listFrom (c : Circuit) (done : List Node) : List Node :=
  if c.id ∈ done.map Node.id then done
  else
    match h : c.node.label with
    | .leaf _ => done ++ [c.node]
    | .binary _ l r =>
      (c.operand r (operands_lt h).2).listFrom ((c.operand l (operands_lt h).1).listFrom done) ++
        [c.node]
termination_by c.id
decreasing_by
  · exact (operands_lt h).1
  · exact (operands_lt h).2

/-- What is listed below a root has no larger id. -/
theorem le_of_mem_listFrom {c : Circuit} {done : List Node} {j : Nat}
    (hj : j ∈ (c.listFrom done).map Node.id) : j ∈ done.map Node.id ∨ j ≤ c.id := by
  fun_induction listFrom c done with
  | case1 c done h => exact .inl hj
  | case2 c done h x hl =>
    rw [List.map_append, List.mem_append] at hj
    refine hj.imp_right fun hj => ?_
    rw [List.mem_singleton.1 hj, id_node]
  | case3 c done h op l r hl ihl _ ihr =>
    obtain ⟨h₁, h₂⟩ := operands_lt hl
    rw [List.map_append, List.mem_append] at hj
    rcases hj with hj | hj
    · rcases ihr hj with hj | hj
      · exact (ihl hj).imp_right fun hj => Nat.le_trans hj (Nat.le_of_lt h₁)
      · exact .inr (Nat.le_trans hj (Nat.le_of_lt h₂))
    · exact .inr (by rw [List.mem_singleton.1 hj, id_node])

end Circuit

/-- A walk has listed the given nodes, in this order. -/
structure Walked.Lists (w : Walked) (ns : List Node) : Prop where
  order_eq : w.order.toList = ns
  seen_iff : ∀ j, w.seen.contains j = true ↔ j ∈ ns.map Node.id

theorem Walked.lists_empty : Walked.empty.Lists [] := ⟨rfl, by simp [Walked.empty]⟩

theorem Walked.Lists.push {w : Walked} {ns : List Node} (h : w.Lists ns) (n : Node) :
    (w.push n).Lists (ns ++ [n]) := by
  refine ⟨?_, fun j => ?_⟩
  · rw [Walked.push, Array.toList_push, h.order_eq]
  · rw [Walked.seen_push, h.seen_iff]
    simp

namespace Arena

variable {a : Arena} {n : Node} {w : Walked}

theorem walkTasks_enter_seen (h : w.seen.contains n.id = true) (tasks : List WalkTask) :
    a.walkTasks (fun _ => false) (.enter n :: tasks) w = a.walkTasks (fun _ => false) tasks w := by
  rw [walkTasks]
  simp [h]

theorem walkTasks_enter_leaf (h : ¬ w.seen.contains n.id = true) {x : Leaf} (hn : n.label = .leaf x)
    (tasks : List WalkTask) :
    a.walkTasks (fun _ => false) (.enter n :: tasks) w =
      a.walkTasks (fun _ => false) tasks (w.push n) := by
  rw [walkTasks, if_neg (by simpa using h)]
  split
  · rfl
  · rename_i hy
    cases hn.symm.trans hy

theorem walkTasks_enter_binary (h : ¬ w.seen.contains n.id = true) {op : Op}
    {l r : Nat} {nl nr : Node} (hn : n.label = .binary op l r) (hl : a.node? l = some nl)
    (hr : a.node? r = some nr) (tasks : List WalkTask) :
    a.walkTasks (fun _ => false) (.enter n :: tasks) w =
      a.walkTasks (fun _ => false) (.enter nl :: .enter nr :: .leave n :: tasks) w := by
  conv => lhs; rw [walkTasks, if_neg (by simpa using h)]
  split
  · rename_i hy
    cases hn.symm.trans hy
  · rename_i hy
    cases hn.symm.trans hy
    split
    · rename_i hl' hr'
      cases hl.symm.trans hl'
      cases hr.symm.trans hr'
      rfl
    · rename_i h
      exact absurd hr (h nl nr hl)

end Arena

namespace Circuit

/-- Entering a circuit lists what the recursion lists. -/
theorem exists_walkTasks_node (c : Circuit) {ns : List Node} {w : Walked} (hw : w.Lists ns) :
    ∃ w', w'.Lists (c.listFrom ns) ∧ ∀ tasks,
      c.arena.walkTasks (fun _ => false) (.enter c.node :: tasks) w =
        c.arena.walkTasks (fun _ => false) tasks w' := by
  have hseen : ∀ {c : Circuit} {ns : List Node} {w : Walked}, w.Lists ns →
      (w.seen.contains c.node.id = true ↔ c.id ∈ ns.map Node.id) := fun hw => by
        rw [hw.seen_iff, id_node]
  fun_induction listFrom c ns generalizing w with
  | case1 c ns h => exact ⟨w, hw, Arena.walkTasks_enter_seen ((hseen hw).2 h)⟩
  | case2 c ns h x hl =>
    exact ⟨_, hw.push c.node, Arena.walkTasks_enter_leaf (mt (hseen hw).1 h) hl⟩
  | case3 c ns h op l r hl ihl _ ihr =>
    obtain ⟨h₁, h₂⟩ := operands_lt hl
    obtain ⟨w₁, hw₁, hrun₁⟩ := ihl hw
    obtain ⟨w₂, hw₂, hrun₂⟩ := ihr hw₁
    -- the operands have smaller ids, so the root is still to be listed when it is left
    have hnew : ¬ w₂.seen.contains c.node.id = true := by
      rw [hseen hw₂]
      intro hm
      rcases le_of_mem_listFrom hm with hm | hm
      · rcases le_of_mem_listFrom hm with hm | hm
        · exact h hm
        · exact Nat.not_lt.2 hm h₁
      · exact Nat.not_lt.2 hm h₂
    refine ⟨_, hw₂.push c.node, fun tasks => ?_⟩
    rw [Arena.walkTasks_enter_binary (mt (hseen hw).1 h) hl (c.node?_operand h₁)
      (c.node?_operand h₂)]
    calc
      _ = c.arena.walkTasks (fun _ => false)
          (.enter (c.operand r h₂).node :: .leave c.node :: tasks) w₁ := hrun₁ _
      _ = c.arena.walkTasks (fun _ => false) (.leave c.node :: tasks) w₂ := hrun₂ _
      _ = c.arena.walkTasks (fun _ => false) tasks (w₂.push c.node) := by
        rw [Arena.walkTasks, if_neg hnew]

theorem walk_eq (c : Circuit) : c.walk = c.listFrom [] := by
  obtain ⟨w, hw, hrun⟩ := c.exists_walkTasks_node Walked.lists_empty
  rw [walk, Arena.postorder, hrun, Arena.walkTasks, hw.order_eq]

theorem usesNextRow_iff_reaches {c : Circuit} :
    c.usesNextRow = true ↔
      ∃ j cell, c.arena.Reaches c.id j ∧ c.arena.label? j = some (.leaf (.input cell)) ∧
        cell.row = .next := by
  rw [usesNextRow_iff]
  constructor
  · rintro ⟨cell, hrow, hcell⟩
    obtain ⟨j, hreach, hlabel⟩ := c.unfolds_expr.exists_leaf hcell
    exact ⟨j, cell, hreach, hlabel, hrow⟩
  · rintro ⟨j, cell, hreach, hlabel, hrow⟩
    obtain ⟨e, he, hvars⟩ := hreach.unfolds c.unfolds_expr
    obtain rfl := he.unique (.leaf hlabel)
    exact ⟨cell, hrow, hvars _ (by simp [Expr.vars])⟩

/-! ## Both traversals -/

/-- For visits in any monad, a fold over a circuit returns what the recursion returns. A walk is the
recursion that skips what is listed already: it lists the nodes below the root, each once and after
its operands, so it finds the cells of the next row. -/
theorem traversals_eq_recursions {m : Type → Type} [Monad m] [LawfulMonad m] {α : Type}
    (v : VisitorM m α) (c : Circuit) :
    (c.arena.foldM v c.node).run = some <$> c.visit v ∧
      c.walk = c.listFrom [] ∧
      (∀ n, n ∈ c.walk ↔ c.arena.node? n.id = some n ∧ c.arena.Reaches c.id n.id) ∧
      (c.walk.map Node.id).Nodup ∧
      (∀ before n after, c.walk = before ++ n :: after →
        ∀ j ∈ n.label.children, j ∈ before.map Node.id) ∧
      (c.usesNextRow = true ↔
        ∃ j cell, c.arena.Reaches c.id j ∧ c.arena.label? j = some (.leaf (.input cell)) ∧
          cell.row = .next) := by
  have hlisting : Listing c.arena (fun _ => false) c.walk :=
    (Arena.listing_postorder (fun _ => false) c.node?_id).1
  refine ⟨?_, c.walk_eq, fun n => mem_walk_iff, hlisting.nodup, fun before n after hwalk j hj => ?_,
    usesNextRow_iff_reaches⟩
  · rw [foldM_node, OptionT.run_lift, map_eq_pure_bind]
  · exact (hlisting.operands_before hwalk j hj).resolve_left Bool.false_ne_true

end Circuit

/-- Counts the leaves of a circuit, a bound node as a hundred of them, and records the ids of the
nodes that are visited. -/
def VisitorM.counter (bound : Nat → Bool) : VisitorM (StateM (List Nat)) Nat where
  bound n := if bound n.id then do modify (· ++ [n.id]); return some 100 else return none
  leaf n _ := do modify (· ++ [n.id]); return 1
  operation n _ x y := do modify (· ++ [n.id]); return x + y

/-- The square of a sum over two rows, plus a cell of the sum. -/
def ConstraintSystem.squaredSum : ConstraintSystem := .ofBuild ⟨1, 0, 0⟩ do
  let cell ← Build.currentMain 0
  let sum ← Build.plus cell (← Build.nextMain 0)
  return ⟨[], [], [← Build.plus (← Build.times sum sum) cell], []⟩

/-- The fold comes twice to the sum, which is bound, and does not go on to its cells. The walk comes
once to every node. -/
theorem Circuit.traversals_eq_recursions_squaredSum :
    ∃ c : Circuit, c.arena = ConstraintSystem.squaredSum.arena ∧ c.id = 4 ∧
      ((c.arena.foldM (VisitorM.counter fun i => i == 2) c.node).run.run []).run =
      (some 201, [2, 2, 3, 0, 4]) ∧
      ((c.visit (VisitorM.counter fun i => i == 2)).run []).run = (201, [2, 2, 3, 0, 4]) ∧
      (c.listFrom []).map Node.id = [0, 1, 2, 3, 4] ∧ c.walk = c.listFrom [] ∧
      (c.walk.map Node.id).Nodup ∧
      ∃ j cell, c.arena.Reaches c.id j ∧ c.arena.label? j = some (.leaf (.input cell)) ∧
        cell.row = .next := by
  obtain ⟨c, harena, hid, hrun, hids, huses⟩ : ∃ c : Circuit,
      c.arena = ConstraintSystem.squaredSum.arena ∧ c.id = 4 ∧
      ((c.arena.foldM (VisitorM.counter fun i => i == 2) c.node).run.run []).run =
        (some 201, [2, 2, 3, 0, 4]) ∧
      c.walk.map Node.id = [0, 1, 2, 3, 4] ∧ c.usesNextRow = true :=
    ⟨⟨ConstraintSystem.squaredSum.arena, 4, by decide +kernel⟩, rfl, rfl, by decide +kernel, by
      decide +kernel, by decide +kernel⟩
  obtain ⟨hfold, hwalk, -, hnodup, -, hnext⟩ :=
    traversals_eq_recursions (VisitorM.counter fun i => i == 2) c
  refine ⟨c, harena, hid, hrun, ?_, hwalk ▸ hids, hwalk, hnodup, hnext.1 huses⟩
  rw [hfold, StateT.run_map, Id.run_map, Prod.mk.injEq, Option.some.injEq] at hrun
  exact Prod.ext hrun.1 hrun.2

end AirCompiler
