import AirCompiler.Proofs.Circuit.Reach
import AirCompiler.Sharing.Plan

/-!
# Path counts

`Plan.countPaths` counts the paths from some roots to the nodes below them (`Below`). Every node
starts with the number of times that it is a root; then counts are passed down by decreasing id, so
that a node has its whole count when it is passed on. `Plan.Passed` says what the counts are in
between.

* `Plan.passDown_spec`: passing on the count of a node succeeds and keeps `Passed`.
* `Plan.countPaths_spec`: so counting succeeds. In the end, a count is the number of times that the
  node is a root, and the counts of all nodes that it is an operand of (`Plan.Counted`).
* `Plan.Passed.le_operand`: hence an operand has no smaller count than the operation.
-/

namespace AirCompiler

namespace Arena

variable {a : Arena} {i j : Nat}

/-- The operands of a node, left one first. -/
def operands (a : Arena) (i : Nat) : List Nat := ((a.label? i).map Label.children).getD []

theorem operands_of_node? {n : Node} (hn : a.node? i = some n) :
    a.operands i = n.label.children := by
  simp [operands, label?_of_node? hn]

theorem mem_operands (hi : i < a.size) : j ∈ a.operands i ↔ a.HasOperand i j := by
  obtain ⟨n, hn⟩ := exists_node? hi
  rw [operands_of_node? hn, hasOperand_iff hn]

end Arena

def Below (a : Arena) (cs : List Circuit) (i : Nat) : Prop := ∃ c ∈ cs, a.Reaches c.id i

theorem Below.operand {a : Arena} {cs : List Circuit} {i j : Nat} (h : Below a cs i)
    (hj : a.HasOperand i j) :
    Below a cs j := by
  obtain ⟨c, hc, hr⟩ := h
  exact ⟨c, hc, hr.tail hj⟩

theorem Below.lt {a : Arena} {cs : List Circuit} (ha : ∀ c ∈ cs, c.arena = a) {i : Nat}
    (h : Below a cs i) : i < a.size := by
  obtain ⟨c, hc, hr⟩ := h
  exact Nat.lt_of_le_of_lt hr.le (ha c hc ▸ c.isLt)

/-- What stands below the roots reads no variables but theirs. -/
theorem Below.unfolds {a : Arena} {cs : List Circuit} (ha : ∀ c ∈ cs, c.arena = a) {i : Nat}
    (h : Below a cs i) : ∃ e, a.Unfolds i e ∧ ∃ c ∈ cs, ∀ x ∈ e.vars, x ∈ c.expr.vars := by
  obtain ⟨c, hc, hr⟩ := h
  obtain ⟨e, he, hvars⟩ := hr.unfolds (ha c hc ▸ c.unfolds_expr)
  exact ⟨e, he, c, hc, hvars⟩

/-- The node stands below one of the circuits, each of them in its own arena. -/
def Reached (cs : List Circuit) (i : Nat) : Prop := ∃ c ∈ cs, c.arena.Reaches c.id i

theorem reached_iff_below {a : Arena} {cs : List Circuit} (ha : ∀ c ∈ cs, c.arena = a) {i : Nat} :
    Reached cs i ↔ Below a cs i := by
  refine exists_congr fun c => and_congr_right fun hc => ?_
  rw [ha c hc]

theorem Circuit.mem_map_walk {c : Circuit} {i : Nat} :
    i ∈ c.walk.map Node.id ↔ c.arena.Reaches c.id i := by
  rw [List.mem_map]
  constructor
  · rintro ⟨n, hn, rfl⟩
    exact (mem_walk_iff.1 hn).2
  · intro h
    obtain ⟨n, hn⟩ := Arena.exists_node? (Nat.lt_of_le_of_lt h.le c.isLt)
    have hid := Arena.id_of_node? hn
    exact ⟨n, mem_walk_iff.2 (by rw [hid]; exact ⟨hn, h⟩), hid⟩

namespace Plan

variable {a : Arena} {cs : List Circuit}

/-! ## Roots -/

theorem getD_insert (counts : Counts) (i j k : Nat) :
    (counts.insert i k).getD j 0 = if j = i then k else counts.getD j 0 := by
  simp only [Std.TreeMap.getD_insert, Std.LawfulEqOrd.compare_eq_iff_eq, eq_comm (a := i)]

theorem mem_insert {counts : Counts} {i j k : Nat} :
    j ∈ counts.insert i k ↔ j = i ∨ j ∈ counts := by
  rw [Std.TreeMap.mem_insert, Std.LawfulEqOrd.compare_eq_iff_eq, eq_comm]

/-- The nodes of a walk with count zero, unless they have one. -/
def noted (counts : Counts) (ns : List Node) : Counts :=
  ns.foldl (fun counts n => counts.insertIfNew n.id 0) counts

theorem mem_noted {counts : Counts} {ns : List Node} {i : Nat} :
    i ∈ noted counts ns ↔ i ∈ counts ∨ i ∈ ns.map Node.id := by
  induction ns generalizing counts with
  | nil => simp [noted]
  | cons n ns ih =>
    rw [noted, List.foldl_cons, ← noted, ih, Std.TreeMap.mem_insertIfNew,
      Std.LawfulEqOrd.compare_eq_iff_eq, List.map_cons, List.mem_cons, eq_comm (a := i)]
    tauto

theorem getD_noted (counts : Counts) (ns : List Node) (i : Nat) :
    (noted counts ns).getD i 0 = counts.getD i 0 := by
  induction ns generalizing counts with
  | nil => rfl
  | cons n ns ih =>
    rw [noted, List.foldl_cons, ← noted, ih, Std.TreeMap.getD_insertIfNew]
    split
    · rename_i h
      obtain ⟨heq, hnew⟩ := h
      rw [Std.LawfulEqOrd.compare_eq_iff_eq] at heq
      rw [← heq, Std.TreeMap.getD_eq_fallback hnew]
    · rfl

def addRoot (counts : Counts) (c : Circuit) : Counts :=
  (noted counts c.walk).insert c.id ((noted counts c.walk).getD c.id 0 + 1)

theorem rootCounts_eq (cs : List Circuit) : rootCounts cs = cs.foldl addRoot ∅ := rfl

theorem mem_addRoots {counts : Counts} {i : Nat} :
    i ∈ cs.foldl addRoot counts ↔ i ∈ counts ∨ Reached cs i := by
  induction cs generalizing counts with
  | nil => simp [Reached]
  | cons c cs ih =>
    rw [List.foldl_cons, ih, addRoot, mem_insert, mem_noted, Circuit.mem_map_walk]
    simp only [Reached, List.exists_mem_cons_iff]
    constructor
    · rintro ((rfl | h | h) | h)
      · exact .inr (.inl .refl)
      · exact .inl h
      · exact .inr (.inl h)
      · exact .inr (.inr h)
    · tauto

theorem getD_addRoots (cs : List Circuit) (counts : Counts) (i : Nat) :
    (cs.foldl addRoot counts).getD i 0 = counts.getD i 0 + (cs.map Circuit.id).count i := by
  induction cs generalizing counts with
  | nil => simp
  | cons c cs ih =>
    rw [List.foldl_cons, ih, addRoot, getD_insert, getD_noted, getD_noted,
      List.map_cons, List.count_cons]
    by_cases hi : i = c.id
    · subst hi
      simp
      omega
    · simp [hi, eq_comm (a := c.id)]

/-! ## Passing counts down -/

/-- What some nodes pass on to node `j`: each its count, as often as `j` is its operand. -/
def inflow (a : Arena) (count : Nat → Nat) (j : Nat) : List Nat → Nat
  | [] => 0
  | p :: ps => (a.operands p).count j * count p + inflow a count j ps

/-- Only the nodes that `j` is an operand of pass on to it. -/
theorem inflow_congr {count count' : Nat → Nat} {j : Nat} {ps : List Nat}
    (h : ∀ p ∈ ps, j ∈ a.operands p → count p = count' p) :
    inflow a count j ps = inflow a count' j ps := by
  induction ps with
  | nil => rfl
  | cons p ps ih =>
    have hrest := ih fun q hq => h q (List.mem_cons_of_mem p hq)
    by_cases hj : j ∈ a.operands p
    · rw [inflow, inflow, h p List.mem_cons_self hj, hrest]
    · rw [inflow, inflow, List.count_eq_zero_of_not_mem hj, Nat.zero_mul, Nat.zero_mul, hrest]

theorem le_inflow (count : Nat → Nat) {j p : Nat} {ps : List Nat} (hp : p ∈ ps)
    (hj : j ∈ a.operands p) : count p ≤ inflow a count j ps := by
  induction ps with
  | nil => cases hp
  | cons q ps ih =>
    rw [inflow]
    rcases List.mem_cons.1 hp with rfl | hp
    · have hpos : 0 < (a.operands p).count j := List.count_pos_iff.2 hj
      have := Nat.le_mul_of_pos_left (count p) hpos
      omega
    · have := ih hp
      omega

/-- The counts when the nodes `done` have passed on theirs. -/
structure Passed (a : Arena) (cs : List Circuit) (done : List Nat) (counts : Counts) : Prop where
  mem_iff : ∀ i, i ∈ counts ↔ Below a cs i
  getD_eq : ∀ j,
    counts.getD j 0 = (cs.map Circuit.id).count j + inflow a (fun i => counts.getD i 0) j done

/-- One operand gets the count of its node `i`. -/
def passTo (i : Nat) (counts : Counts) (j : Nat) : Except CompileError Counts :=
  match counts[j]? with
  | none => .error .uncountedNode
  | some k => .ok (counts.insert j (k + counts.getD i 0))

theorem passDown_eq {i : Nat} (hi : i < a.size) (counts : Counts) :
    passDown a counts i = (a.operands i).foldlM (passTo i) counts := by
  obtain ⟨n, hn⟩ := Arena.exists_node? hi
  rw [passDown, hn, Arena.operands_of_node? hn]
  rfl

theorem passTo_spec (counts : Counts) {i : Nat} {js : List Nat} (hjs : ∀ j ∈ js, j ∈ counts)
    (hi : i ∉ js) :
    ∃ counts', js.foldlM (passTo i) counts = .ok counts' ∧ (∀ j, j ∈ counts' ↔ j ∈ counts) ∧
      ∀ j, counts'.getD j 0 = counts.getD j 0 + js.count j * counts.getD i 0 := by
  -- an operand may stand twice, so its count changes on the way; that of `i` does not
  induction js generalizing counts with
  | nil => exact ⟨counts, rfl, by simp, by simp⟩
  | cons child js ih =>
    have hchild := hjs child List.mem_cons_self
    have hne : i ≠ child := fun h => hi (h ▸ List.mem_cons_self)
    have hpass : passTo i counts child =
        .ok (counts.insert child (counts.getD child 0 + counts.getD i 0)) := by
      unfold passTo
      rw [Std.TreeMap.getElem?_eq_some_getD hchild]
    obtain ⟨counts', h, hmem, hget⟩ :=
      ih (counts.insert child (counts.getD child 0 + counts.getD i 0))
        (fun j hj => mem_insert.2 (.inr (hjs j (List.mem_cons_of_mem child hj))))
        fun h => hi (List.mem_cons_of_mem child h)
    refine ⟨counts', ?_, fun j => ?_, fun j => ?_⟩
    · rw [List.foldlM_cons, hpass]
      exact h
    · rw [hmem, mem_insert]
      exact or_iff_right_of_imp fun h => h ▸ hchild
    · rw [hget, getD_insert, getD_insert, if_neg hne, List.count_cons]
      by_cases hj : j = child
      · subst hj
        simp [Nat.add_mul]
        omega
      · simp [hj, eq_comm (a := child)]

/-- A node passes its count on after all nodes with larger ids. -/
theorem passDown_spec {done : List Nat} {counts : Counts} (h : Passed a cs done counts)
    {i : Nat} (hi : Below a cs i) (hlt : i < a.size) (hdone : ∀ p ∈ done, i < p) :
    ∃ counts', passDown a counts i = .ok counts' ∧ Passed a cs (i :: done) counts' := by
  have hop : ∀ j ∈ a.operands i, j < i := fun j hj => ((Arena.mem_operands hlt).1 hj).lt
  have hself : i ∉ a.operands i := fun hm => Nat.lt_irrefl i (hop i hm)
  obtain ⟨counts', hrun, hmem, hget⟩ := passTo_spec counts
    (fun j hj => (h.mem_iff j).2 (hi.operand ((Arena.mem_operands hlt).1 hj))) hself
  -- neither the node itself nor one that was passed on before is an operand, so their counts stay
  have hkept : ∀ p ∈ i :: done, counts'.getD p 0 = counts.getD p 0 := by
    intro p hp
    have hp : p ∉ a.operands i := by
      rcases List.mem_cons.1 hp with rfl | hp
      · exact hself
      · intro hm
        have h₁ := hop p hm
        have h₂ := hdone p hp
        omega
    rw [hget, List.count_eq_zero_of_not_mem hp, Nat.zero_mul, Nat.add_zero]
  refine ⟨counts', by rw [passDown_eq hlt, hrun], fun j => (hmem j).trans (h.mem_iff j),
    fun j => ?_⟩
  rw [inflow_congr fun p hp _ => hkept p hp, inflow, hget, h.getD_eq]
  omega

theorem passDowns_spec (is : List Nat) {done : List Nat} {counts : Counts}
    (h : Passed a cs done counts) (his : ∀ i ∈ is, Below a cs i ∧ i < a.size)
    (hlt : ∀ i ∈ is, ∀ p ∈ done, i < p) (hdesc : is.Pairwise (· > ·)) :
    ∃ counts', is.foldlM (passDown a) counts = .ok counts' ∧
      Passed a cs (is.reverse ++ done) counts' := by
  induction is generalizing done counts with
  | nil => exact ⟨counts, rfl, h⟩
  | cons i is ih =>
    rw [List.pairwise_cons] at hdesc
    obtain ⟨hi, hsize⟩ := his i List.mem_cons_self
    obtain ⟨counts₁, h₁, hp₁⟩ := passDown_spec h hi hsize (hlt i List.mem_cons_self)
    obtain ⟨counts₂, h₂, hp₂⟩ := ih hp₁ (fun j hj => his j (List.mem_cons_of_mem i hj))
      (by
        intro j hj p hp
        rcases List.mem_cons.1 hp with rfl | hp
        · exact hdesc.1 j hj
        · exact hlt j (List.mem_cons_of_mem i hj) p hp) hdesc.2
    refine ⟨counts₂, ?_, ?_⟩
    · rw [List.foldlM_cons, h₁]
      exact h₂
    · rw [List.reverse_cons, List.append_assoc]
      exact hp₂

/-- The number of times that a node is a root, and the counts of all nodes that it is an operand
of. -/
abbrev Counted (a : Arena) (cs : List Circuit) (counts : Counts) : Prop :=
  Passed a cs (rootCounts cs).keys counts

theorem mem_rootCounts_iff {i : Nat} : i ∈ rootCounts cs ↔ Reached cs i := by
  rw [rootCounts_eq, mem_addRoots]
  simp

theorem mem_rootCounts (ha : ∀ c ∈ cs, c.arena = a) {i : Nat} : i ∈ rootCounts cs ↔ Below a cs i :=
  mem_rootCounts_iff.trans (reached_iff_below ha)

/-- Counting the paths below the circuits of one arena succeeds. -/
theorem countPaths_spec (ha : ∀ c ∈ cs, c.arena = a) :
    ∃ counts, countPaths cs = .ok counts ∧ Counted a cs counts := by
  have hstart : Passed a cs [] (rootCounts cs) := by
    refine ⟨fun i => mem_rootCounts ha, fun j => ?_⟩
    rw [rootCounts_eq, getD_addRoots]
    simp [inflow]
  have hdesc : (rootCounts cs).keys.reverse.Pairwise (· > ·) := by
    rw [List.pairwise_reverse]
    exact Std.TreeMap.ordered_keys.imp fun h => Nat.compare_eq_lt.1 h
  obtain ⟨counts, h, hp⟩ := passDowns_spec (rootCounts cs).keys.reverse hstart
    (by
      intro i hi
      rw [List.mem_reverse, Std.TreeMap.mem_keys, mem_rootCounts ha] at hi
      exact ⟨hi, hi.lt ha⟩) (by simp) hdesc
  rw [List.reverse_reverse, List.append_nil] at hp
  refine ⟨counts, ?_, hp⟩
  cases cs with
  | nil => exact h
  | cons first rest =>
    rw [← h, ← ha first List.mem_cons_self]
    rfl

/-- An operand has no smaller count than the operation. -/
theorem Passed.le_operand (ha : ∀ c ∈ cs, c.arena = a) {counts : Counts} (h : Counted a cs counts)
    {i j : Nat} (hi : Below a cs i) (hj : a.HasOperand i j) :
    counts.getD i 0 ≤ counts.getD j 0 := by
  have hkey : i ∈ (rootCounts cs).keys := by rwa [Std.TreeMap.mem_keys, mem_rootCounts ha]
  have := le_inflow (fun i => counts.getD i 0) hkey ((Arena.mem_operands (hi.lt ha)).2 hj)
  rw [h.getD_eq j]
  omega

end Plan

end AirCompiler
