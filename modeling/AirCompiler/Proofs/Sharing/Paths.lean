import AirCompiler.Proofs.Sharing.Plan
import AirCompiler.System.Samples
import Mathlib.Data.Set.Card

/-!
# Paths

A path goes down from a root, to the left or to the right operand at each step (`Arena.follow?`).
`rootPaths a cs j` are the paths from the roots `cs` to node `j`; a circuit that is listed twice is
two roots.

Paths to a node are the places where it stands in the unfolded trees, and `Arena.occurrences` lists
these. But for the root, each of them is an operand of the place above it
(`Arena.perm_occurrences`), which is the equation that path counts are passed down by.

* `encard_rootPaths`: the number of paths to a node is the number of its occurrences.
* `Plan.Passed.getD_eq_count`: so is its path count.
* `Plan.countPaths_exact`: counting finds the numbers of paths to all nodes below the circuits.
* `Plan.ofCircuits_exact`: the sharing plan lists the operations with two paths or more, by their
  numbers of paths, and each after its operands.
-/

namespace AirCompiler

/-- A side of an operation. -/
inductive Side where
  | left
  | right
  deriving DecidableEq

namespace Arena

/-- The operand on one side of an operation. -/
def operand? (a : Arena) (i : Nat) (side : Side) : Option Nat :=
  match a.label? i, side with
  | some (.binary _ l _), .left => some l
  | some (.binary _ _ r), .right => some r
  | _, _ => none

/-- The node that a path leads to. -/
def follow? (a : Arena) : Nat → List Side → Option Nat
  | i, [] => some i
  | i, side :: path => (a.operand? i side).bind fun j => a.follow? j path

/-- The nodes in the tree that a node unfolds into, each as often as it stands there. -/
def occurrences (a : Arena) (i : Nat) : List Nat :=
  match _ : a.label? i with
  | some (.binary _ l r) => i :: (a.occurrences l ++ a.occurrences r)
  | _ => [i]
termination_by i
decreasing_by
  · rename_i h
    exact (operands_lt h).1
  · rename_i h
    exact (operands_lt h).2

variable {a : Arena} {i j : Nat}

theorem occurrences_leaf {x : Leaf} (hl : a.label? i = some (.leaf x)) : a.occurrences i = [i] := by
  rw [occurrences]
  split
  · rename_i h
    rw [hl] at h
    cases h
  · rfl

theorem occurrences_binary {op : Op} {l r : Nat} (hl : a.label? i = some (.binary op l r)) :
    a.occurrences i = i :: (a.occurrences l ++ a.occurrences r) := by
  rw [occurrences]
  split
  · rename_i h
    rw [hl] at h
    cases h
    rfl
  · rename_i h
    exact absurd hl (h op l r)

theorem operands_leaf {x : Leaf} (hl : a.label? i = some (.leaf x)) : a.operands i = [] := by
  rw [operands, hl]
  rfl

theorem operands_binary {op : Op} {l r : Nat} (hl : a.label? i = some (.binary op l r)) :
    a.operands i = [l, r] := by
  rw [operands, hl]
  rfl

theorem mem_occurrences {e : Expr} (h : a.Unfolds i e) : j ∈ a.occurrences i ↔ a.Reaches i j := by
  induction h with
  | leaf hl => rw [occurrences_leaf hl, List.mem_singleton, reaches_leaf hl]
  | operation hl _ _ ihx ihy =>
    rw [occurrences_binary hl, List.mem_cons, List.mem_append, reaches_binary hl, ihx, ihy]

/-- Whatever stands in a tree is its root or an operand of what stands above it. -/
theorem perm_occurrences {e : Expr} (h : a.Unfolds i e) :
    (a.occurrences i).Perm (i :: (a.occurrences i).flatMap a.operands) := by
  induction h with
  | leaf hl =>
    rw [occurrences_leaf hl, List.flatMap_singleton, operands_leaf hl]
  | @operation i l r op x y hl _ _ ihx ihy =>
    rw [occurrences_binary hl, List.flatMap_cons, operands_binary hl, List.flatMap_append]
    exact .cons i ((ihx.append ihy).trans (.cons l List.perm_middle))

/-! ## Numbers of paths -/

theorem setOf_follow?_leaf {x : Leaf} (hl : a.label? i = some (.leaf x)) (j : Nat) :
    {path | a.follow? i path = some j} = {path | path = [] ∧ i = j} := by
  ext path
  cases path with
  | nil => simp [follow?]
  | cons side path => simp [follow?, operand?, hl]

/-- A path from an operation is empty, or goes on from one of the operands. -/
theorem setOf_follow?_binary {op : Op} {l r : Nat} (hl : a.label? i = some (.binary op l r))
    (j : Nat) :
    {path | a.follow? i path = some j} = {path | path = [] ∧ i = j} ∪
      (List.cons .left '' {path | a.follow? l path = some j} ∪ List.cons .right ''
        {path | a.follow? r path = some j}) := by
  ext path
  cases path with
  | nil => simp [follow?]
  | cons side path => cases side <;> simp [follow?, operand?, hl]

theorem encard_empty_path (i j : Nat) :
    {path : List Side | path = [] ∧ i = j}.encard = [i].count j := by
  by_cases hij : i = j
  · simp [hij]
  · simp [hij]

theorem encard_follow? {e : Expr} (h : a.Unfolds i e) (j : Nat) :
    {path | a.follow? i path = some j}.encard = (a.occurrences i).count j := by
  induction h with
  | leaf hl => rw [setOf_follow?_leaf hl, encard_empty_path, occurrences_leaf hl]
  | @operation i l r op x y hl _ _ ihx ihy =>
    have hsides : Disjoint (List.cons Side.left '' {path | a.follow? l path = some j})
        (List.cons .right '' {path | a.follow? r path = some j}) := by
      rw [Set.disjoint_left]
      rintro _ ⟨p, -, rfl⟩ ⟨q, -, hq⟩
      cases hq
    have hempty : Disjoint {path : List Side | path = [] ∧ i = j}
        (List.cons .left '' {path | a.follow? l path = some j} ∪ List.cons .right ''
          {path | a.follow? r path = some j}) := by
      rw [Set.disjoint_left]
      rintro _ ⟨rfl, -⟩ (⟨p, -, hp⟩ | ⟨p, -, hp⟩)
      · cases hp
      · cases hp
    have hcount : (i :: (a.occurrences l ++ a.occurrences r)).count j =
        [i].count j + ((a.occurrences l).count j + (a.occurrences r).count j) := by
      rw [← List.count_append, ← List.count_append]
      rfl
    rw [setOf_follow?_binary hl, Set.encard_union_eq hempty, Set.encard_union_eq hsides,
      encard_empty_path,
      List.cons_injective.encard_image, List.cons_injective.encard_image, ihx, ihy,
        occurrences_binary hl, hcount]
    push_cast
    rfl

end Arena

/-- The nodes in the trees of some circuits, each as often as it stands there. -/
def treeNodes (a : Arena) (cs : List Circuit) : List Nat := cs.flatMap fun c => a.occurrences c.id

/-- The paths from circuits of a list to a node: the position of the circuit, and the way down from
it. -/
def rootPaths (a : Arena) (cs : List Circuit) (j : Nat) : Set (Nat × List Side) :=
  {p | ∃ c, cs[p.1]? = some c ∧ a.follow? c.id p.2 = some j}

section

variable {a : Arena} {cs : List Circuit}

theorem rootPaths_cons (c : Circuit) (cs : List Circuit) (j : Nat) :
    rootPaths a (c :: cs) j =
      Prod.mk 0 '' {path | a.follow? c.id path = some j} ∪
        Prod.map Nat.succ id '' rootPaths a cs j := by
  ext ⟨k, path⟩
  cases k with
  | zero => simp [rootPaths]
  | succ k => simp [rootPaths]

theorem encard_rootPaths (ha : ∀ c ∈ cs, c.arena = a) (j : Nat) :
    (rootPaths a cs j).encard = (treeNodes a cs).count j := by
  induction cs with
  | nil => simp [rootPaths, treeNodes]
  | cons c cs ih =>
    have hdisjoint : Disjoint (Prod.mk 0 '' {path | a.follow? c.id path = some j})
        (Prod.map Nat.succ id '' rootPaths a cs j) := by
      rw [Set.disjoint_left]
      rintro _ ⟨p, -, rfl⟩ ⟨q, -, hq⟩
      cases hq
    have hsucc : Function.Injective (Prod.map Nat.succ (id : List Side → List Side)) :=
      Nat.succ_injective.prodMap Function.injective_id
    rw [rootPaths_cons, Set.encard_union_eq hdisjoint, (Prod.mk_right_injective 0).encard_image,
      hsucc.encard_image, ih fun d hd => ha d (List.mem_cons_of_mem c hd),
      Arena.encard_follow? (ha c List.mem_cons_self ▸ c.unfolds_expr),
      treeNodes, treeNodes, List.flatMap_cons, List.count_append]
    push_cast
    rfl

theorem mem_treeNodes (ha : ∀ c ∈ cs, c.arena = a) {j : Nat} :
    j ∈ treeNodes a cs ↔ Below a cs j := by
  rw [treeNodes, List.mem_flatMap]
  constructor
  · rintro ⟨c, hc, hj⟩
    exact ⟨c, hc, (Arena.mem_occurrences (ha c hc ▸ c.unfolds_expr)).1 hj⟩
  · rintro ⟨c, hc, hj⟩
    exact ⟨c, hc, (Arena.mem_occurrences (ha c hc ▸ c.unfolds_expr)).2 hj⟩

theorem perm_treeNodes (ha : ∀ c ∈ cs, c.arena = a) :
    (treeNodes a cs).Perm (cs.map Circuit.id ++ (treeNodes a cs).flatMap a.operands) := by
  induction cs with
  | nil => exact .refl _
  | cons c cs ih =>
    have hc := Arena.perm_occurrences (ha c List.mem_cons_self ▸ c.unfolds_expr)
    have hcs := ih fun d hd => ha d (List.mem_cons_of_mem c hd)
    rw [treeNodes, List.flatMap_cons, ← treeNodes, List.map_cons, List.flatMap_append]
    exact (hc.append hcs).trans (.cons c.id (List.perm_append_comm_assoc _ _ _))

end

theorem ConstraintSystem.arena_of_mem_circuits {s : ConstraintSystem} {role : Role} {c : Circuit}
    (hc : c ∈ s.circuits role) : c.arena = s.arena := by
  obtain ⟨_, -, h⟩ := List.mem_filterMap.1 hc
  exact (Arena.circuit?_eq_some.1 h).1

namespace Plan

variable {a : Arena} {cs : List Circuit} {counts : Counts}

/-- One more occurrence of a node passes one on to each of its operands. -/
theorem inflow_count_cons {ps xs : List Nat} (hps : ps.Nodup) {x : Nat} (hx : x ∈ ps) (j : Nat) :
    inflow a (fun p => (x :: xs).count p) j ps =
      (a.operands x).count j + inflow a (fun p => xs.count p) j ps := by
  induction ps with
  | nil => cases hx
  | cons p ps ih =>
    rw [List.nodup_cons] at hps
    rw [inflow, inflow]
    by_cases hxp : x = p
    · subst hxp
      have hrest : inflow a (fun p => (x :: xs).count p) j ps =
          inflow a (fun p => xs.count p) j ps :=
        inflow_congr fun q hq _ => List.count_cons_of_ne (by rintro rfl; exact hps.1 hq)
      rw [hrest, List.count_cons_self, Nat.mul_add, Nat.mul_one]
      omega
    · rw [ih hps.2 ((List.mem_cons.1 hx).resolve_left hxp), List.count_cons_of_ne hxp]
      omega

theorem inflow_count {ps xs : List Nat} (hps : ps.Nodup) (hxs : ∀ x ∈ xs, x ∈ ps) (j : Nat) :
    inflow a (fun p => xs.count p) j ps = (xs.flatMap a.operands).count j := by
  induction xs with
  | nil =>
    clear hps hxs
    induction ps with
    | nil => rfl
    | cons p ps ih => rw [inflow, ih, List.count_nil, Nat.mul_zero, Nat.zero_add]
  | cons x xs ih =>
    rw [inflow_count_cons hps (hxs x List.mem_cons_self),
      ih fun y hy => hxs y (List.mem_cons_of_mem x hy), List.flatMap_cons, List.count_append]

/-- Numbers that are passed down from the same roots are the same. Each of them is settled by those
of larger ids. -/
theorem eq_of_inflow (f g : Nat → Nat) {roots : Nat → Nat} {ps : List Nat}
    (hps : ∀ p ∈ ps, p < a.size) (hf : ∀ j, f j = roots j + inflow a f j ps)
    (hg : ∀ j, g j = roots j + inflow a g j ps) (j : Nat) : f j = g j := by
  induction hk : a.size - j using Nat.strongRecOn generalizing j with
  | ind k ih =>
    rw [hf, hg]
    congr 1
    refine inflow_congr fun p hp hj => ?_
    have hlt := hps p hp
    have hjp := ((Arena.mem_operands hlt).1 hj).lt
    exact ih (a.size - p) (by omega) p rfl

/-- The count of a node is the number of its occurrences. -/
theorem Passed.getD_eq_count (ha : ∀ c ∈ cs, c.arena = a) (h : Counted a cs counts) (j : Nat) :
    counts.getD j 0 = (treeNodes a cs).count j := by
  have hkeys : ∀ p, p ∈ (rootCounts cs).keys ↔ Below a cs p := fun p => by
    rw [Std.TreeMap.mem_keys, mem_rootCounts ha]
  have hnodup : (rootCounts cs).keys.Nodup := Std.TreeMap.nodup_keys
  refine eq_of_inflow (fun j => counts.getD j 0) (fun j => (treeNodes a cs).count j)
    (fun p hp => ((hkeys p).1 hp).lt ha) h.getD_eq (fun j => ?_) j
  rw [inflow_count hnodup (fun x hx => (hkeys x).2 ((mem_treeNodes ha).1 hx)), ← List.count_append]
  exact (perm_treeNodes ha).count_eq j

theorem Passed.encard_eq (ha : ∀ c ∈ cs, c.arena = a) (h : Counted a cs counts) (j : Nat) :
    (rootPaths a cs j).encard = counts.getD j 0 := by
  rw [encard_rootPaths ha, h.getD_eq_count ha]

/-- Counting the paths below circuits of one arena succeeds. It gives every node below them, and no
other, the number of paths that lead to it. An operand has no smaller count than the operation. -/
theorem countPaths_exact (ha : ∀ c ∈ cs, c.arena = a) :
    ∃ counts, countPaths cs = .ok counts ∧
      (∀ i (k : Nat), counts[i]? = some k ↔ (∃ c ∈ cs, a.Reaches c.id i) ∧
        (rootPaths a cs i).encard = k) ∧
      ∀ i j k, a.HasOperand i j → counts[i]? = some k → ∃ m, counts[j]? = some m ∧ k ≤ m := by
  obtain ⟨counts, hcounts, hcounted⟩ := countPaths_spec ha
  -- a node is below the circuits if and only if it has a count, and then its count is the number of
  -- paths
  have hget : ∀ i, Below a cs i → counts[i]? = some (counts.getD i 0) := fun i hi =>
    Std.TreeMap.getElem?_eq_some_getD ((hcounted.mem_iff i).2 hi)
  have hbelow : ∀ i k, counts[i]? = some k → Below a cs i := by
    intro i k hk
    rw [← hcounted.mem_iff, Std.TreeMap.mem_iff_isSome_getElem?, hk]
    rfl
  refine ⟨counts, hcounts, fun i k => ⟨fun hk => ⟨hbelow i k hk, ?_⟩, ?_⟩, fun i j k hij hk => ?_⟩
  · rw [hget i (hbelow i k hk), Option.some.injEq] at hk
    rw [hcounted.encard_eq ha, hk]
  · rintro ⟨hi, hk⟩
    rw [hcounted.encard_eq ha] at hk
    rw [hget i hi, Option.some.injEq]
    exact_mod_cast hk
  · have hi := hbelow i k hk
    rw [hget i hi, Option.some.injEq] at hk
    exact ⟨_, hget j (hi.operand hij), hk ▸ hcounted.le_operand ha hi hij⟩

/-- The consistency constraints of `synthetic`, each listed twice. The sum at node 15 is squared,
its square is squared again, and it stands below four of the eight roots. -/
theorem countPaths_exact_synthetic :
    let a := ConstraintSystem.synthetic.arena
    let cs :=
      ConstraintSystem.synthetic.circuits .consistency ++
        ConstraintSystem.synthetic.circuits .consistency
    (∀ c ∈ cs, c.arena = a) ∧
      ∃ counts, countPaths cs = .ok counts ∧ counts[15]? = some 14 ∧
        (rootPaths a cs 15).encard = 14 ∧
        (∀ i (k : Nat), counts[i]? = some k ↔ (∃ c ∈ cs, a.Reaches c.id i) ∧
          (rootPaths a cs i).encard = k) ∧
        ∀ i j k, a.HasOperand i j → counts[i]? = some k → ∃ m, counts[j]? = some m ∧ k ≤ m := by
  intro a cs
  have ha : ∀ c ∈ cs, c.arena = a := fun c hc =>
    (List.mem_append.1 hc).elim ConstraintSystem.arena_of_mem_circuits
      ConstraintSystem.arena_of_mem_circuits
  have hcount : ((countPaths cs).toOption.bind fun counts => counts[15]?) = some 14 := by
    decide +kernel
  obtain ⟨counts, hcounts, hexact, hoperand⟩ := countPaths_exact ha
  rw [hcounts] at hcount
  exact ⟨ha, counts, hcounts, hcount, ((hexact 15 14).1 hcount).2, hexact, hoperand⟩

/-! ## Plans -/

theorem Ordered.pairwise {is : List Nat} (h : Ordered a counts is) :
    is.Pairwise fun i j => counts.getD j 0 ≤ counts.getD i 0 := by
  induction h with
  | nil => exact .nil
  | snoc _ _ _ _ _ hle _ ih =>
    refine List.pairwise_append.2 ⟨ih, List.pairwise_singleton _ _, fun j hj k hk => ?_⟩
    rw [List.mem_singleton.1 hk]
    exact hle j hj

/-- An operand that is an operation stands before the operation. -/
theorem Ordered.sublist {is : List Nat} (h : Ordered a counts is) {i j : Nat} (hi : i ∈ is)
    (hij : a.HasOperand i j) (hj : a.IsOperation j) : List.Sublist [j, i] is := by
  induction h with
  | nil => cases hi
  | snoc _ _ _ _ _ _ hops ih =>
    rcases List.mem_append.1 hi with hi | hi
    · exact (ih hi).trans (List.sublist_append_left _ _)
    · obtain rfl := List.mem_singleton.1 hi
      exact (List.singleton_sublist.2 (hops j hij hj)).append (.refl [i])

/-- A plan lists the operations to which two paths or more lead. -/
theorem mem_order_iff (ha : ∀ c ∈ cs, c.arena = a) {plan : Plan} (h : Plan.ofCircuits cs = .ok plan)
    {i : Nat} : i ∈ plan.order ↔ a.IsOperation i ∧ 2 ≤ (rootPaths a cs i).encard := by
  obtain ⟨hcounted, -, hmem⟩ := spec_of_ofCircuits ha h
  rw [hmem, hcounted.encard_eq ha, Nat.ofNat_le_cast]
  refine and_iff_right_of_imp ?_
  rintro ⟨-, hcount⟩
  -- a node that is not below the circuits has no count
  rw [← hcounted.mem_iff]
  by_contra hi
  rw [Std.TreeMap.getD_eq_fallback hi] at hcount
  omega

/-- Circuits of one arena have a sharing plan. It lists, each once, the operations to which two
paths or more lead from the circuits. The numbers of paths never increase along it, and with an
operation its operands that are operations are listed, before it. -/
theorem ofCircuits_exact (ha : ∀ c ∈ cs, c.arena = a) :
    ∃ plan, Plan.ofCircuits cs = .ok plan ∧ plan.order.Nodup ∧
      (∀ i, i ∈ plan.order ↔ a.IsOperation i ∧ 2 ≤ (rootPaths a cs i).encard) ∧
      plan.order.Pairwise (fun i j => (rootPaths a cs j).encard ≤ (rootPaths a cs i).encard) ∧
      ∀ i ∈ plan.order, ∀ j, a.HasOperand i j → a.IsOperation j → List.Sublist
      [j, i] plan.order := by
  obtain ⟨plan, hplan, hcounted, hordered, hmem⟩ := exists_ofCircuits ha
  refine ⟨plan, hplan, hordered.nodup, fun i => ?_, ?_, fun i hi j => hordered.sublist hi⟩
  · rw [hmem, hcounted.encard_eq ha]
    constructor
    · rintro ⟨-, hop, hcount⟩
      exact ⟨hop, by exact_mod_cast hcount⟩
    · rintro ⟨hop, hcount⟩
      have hcount : 2 ≤ plan.counts.getD i 0 := by exact_mod_cast hcount
      -- a node that is counted is reached
      have hpos : 0 < (treeNodes a cs).count i := by
        rw [← hcounted.getD_eq_count ha]
        omega
      exact ⟨(mem_treeNodes ha).1 (List.count_pos_iff.1 hpos), hop, hcount⟩
  · refine hordered.pairwise.imp fun {i j} hle => ?_
    rw [hcounted.encard_eq ha, hcounted.encard_eq ha]
    exact_mod_cast hle

end Plan

/-- The consistency constraints of `synthetic`, to whose shared operations seven, six and three
paths lead. -/
theorem Plan.ofCircuits_exact_synthetic :
    let a := ConstraintSystem.synthetic.arena
    let cs := ConstraintSystem.synthetic.circuits .consistency
    (∀ c ∈ cs, c.arena = a) ∧
      ∃ plan, Plan.ofCircuits cs = .ok plan ∧ plan.order = [15, 38, 16] ∧ plan.order.Nodup ∧
        (∀ i, i ∈ plan.order ↔ a.IsOperation i ∧ 2 ≤ (rootPaths a cs i).encard) ∧
        plan.order.Pairwise (fun i j => (rootPaths a cs j).encard ≤ (rootPaths a cs i).encard) ∧
        ∀ i ∈ plan.order, ∀ j, a.HasOperand i j → a.IsOperation j →
          List.Sublist [j, i] plan.order := by
  intro a cs
  have ha : ∀ c ∈ cs, c.arena = a := fun c hc => ConstraintSystem.arena_of_mem_circuits hc
  have horder : (Plan.ofCircuits cs).toOption.map Plan.order = some [15, 38, 16] := by
    decide +kernel
  obtain ⟨plan, hplan, hexact⟩ := Plan.ofCircuits_exact ha
  rw [hplan] at horder
  exact ⟨ha, plan, hplan, Option.some.inj horder, hexact⟩

end AirCompiler
