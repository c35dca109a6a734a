import AirCompiler.Proofs.Sharing.Plan

/-!
# Plans for circuits of several arenas

A plan tells nodes apart by their ids alone. For circuits of several arenas it first checks that no
two of them reach one id; then it looks all ids up in the arena of the first circuit, whichever
arena they come from.

* `Arena.Hosts a cs`: arena `a` has nodes of all ids that the circuits reach, and their operands are
  reached too. This is what counting needs (`Plan.countPaths_cases`).
* `Plan.Clear`: below a node no operation is in the way of declaring a level. A foreign root may
  have operands that its namesake in `a` has not, so counts need not grow towards the leaves. But
  the nodes that are met at one level were met at all levels before.
* `Plan.ofCircuits_cases`: hence there is a plan if and only if the circuits do not collide and the
  first arena hosts them.
-/

namespace AirCompiler

/-- The arena has nodes of all ids that the circuits reach, and operands of these are reached
too. -/
def Arena.Hosts (a : Arena) (cs : List Circuit) : Prop :=
  ∀ i, Reached cs i → i < a.size ∧ ∀ j, a.HasOperand i j → Reached cs j

namespace Plan

variable {a : Arena} {cs : List Circuit} {counts : Counts}

/-! ## Counting in the first arena -/

theorem passTo_eq_ok {i j : Nat} {counts' : Counts} (h : passTo i counts j = .ok counts') :
    j ∈ counts ∧ ∀ k, k ∈ counts' ↔ k ∈ counts := by
  unfold passTo at h
  cases hj : counts[j]? with
  | none =>
    rw [hj] at h
    cases h
  | some k =>
    rw [hj] at h
    cases h
    have hmem : j ∈ counts := by
      rw [Std.TreeMap.mem_iff_isSome_getElem?, hj]
      rfl
    refine ⟨hmem, fun k => ?_⟩
    rw [mem_insert]
    exact or_iff_right_of_imp fun heq => heq ▸ hmem

/-- A node passes its count on only to operands that are counted. -/
theorem passDown_eq_ok {i : Nat} {counts' : Counts} (h : passDown a counts i = .ok counts') :
    (∀ k, k ∈ counts' ↔ k ∈ counts) ∧ i < a.size ∧ ∀ j, a.HasOperand i j → j ∈ counts := by
  by_cases hi : i < a.size
  · rw [passDown_eq hi] at h
    have hstep : ∀ c j c', j ∈ a.operands i → (∀ k, k ∈ c ↔ k ∈ counts) → passTo i c j = .ok c' →
        (∀ k, k ∈ c' ↔ k ∈ counts) ∧ j ∈ counts := by
      intro c j c' _ hc hpass
      obtain ⟨hj, hc'⟩ := passTo_eq_ok hpass
      exact ⟨fun k => (hc' k).trans (hc k), (hc j).1 hj⟩
    obtain ⟨hmem, hops⟩ := foldlM_forall hstep (fun _ => .rfl) h
    exact ⟨hmem, hi, fun j hj => hops j ((Arena.mem_operands hi).2 hj)⟩
  · unfold passDown at h
    split at h
    · cases h
    · rename_i n hn
      exact absurd (Arena.lt_of_node? hn) hi

theorem exists_passDown {i : Nat} (hi : i < a.size) (hops : ∀ j, a.HasOperand i j → j ∈ counts) :
    ∃ counts', passDown a counts i = .ok counts' ∧ ∀ k, k ∈ counts' ↔ k ∈ counts := by
  have hself : i ∉ a.operands i := fun hm => Nat.lt_irrefl i ((Arena.mem_operands hi).1 hm).lt
  obtain ⟨counts', h, hmem, -⟩ :=
    passTo_spec counts (fun j hj => hops j ((Arena.mem_operands hi).1 hj)) hself
  exact ⟨counts', by rw [passDown_eq hi, h], hmem⟩

theorem passDown_eq_error {i : Nat} {err : CompileError} (h : passDown a counts i = .error err) :
    err = .unknownNode ∨ err = .uncountedNode := by
  unfold passDown at h
  split at h
  · cases h
    exact .inl rfl
  · obtain ⟨c, j, -, hj⟩ := exists_of_foldlM_eq_error h
    split at hj
    · cases hj
      exact .inr rfl
    · cases hj

/-- The paths below circuits are counted if and only if the first arena hosts them. -/
theorem countPaths_cases (first : Circuit) (rest : List Circuit) :
    (∃ counts, countPaths (first :: rest) = .ok counts ∧ first.arena.Hosts (first :: rest) ∧
      ∀ i, i ∈ counts ↔ Reached (first :: rest) i) ∨
    (countPaths (first :: rest) = .error .unknownNode ∨
      countPaths (first :: rest) = .error .uncountedNode) ∧
      ¬ first.arena.Hosts (first :: rest) := by
  have hkeys : ∀ i, i ∈ (rootCounts (first :: rest)).keys.reverse ↔ Reached (first :: rest) i := by
    intro i
    rw [List.mem_reverse, Std.TreeMap.mem_keys, mem_rootCounts_iff]
  cases h : countPaths (first :: rest) with
  | ok counts =>
    have hstep : ∀ c i c', i ∈ (rootCounts (first :: rest)).keys.reverse →
        (∀ k, k ∈ c ↔ Reached (first :: rest) k) → passDown first.arena c i = .ok c' →
        (∀ k, k ∈ c' ↔ Reached (first :: rest) k) ∧ i < first.arena.size ∧
          ∀ j, first.arena.HasOperand i j → Reached (first :: rest) j := by
      intro c i c' _ hc hpass
      obtain ⟨hmem, hi, hops⟩ := passDown_eq_ok hpass
      exact ⟨fun k => (hmem k).trans (hc k), hi, fun j hj => (hc j).1 (hops j hj)⟩
    obtain ⟨hmem, hhosts⟩ := foldlM_forall hstep (fun _ => mem_rootCounts_iff) h
    exact .inl ⟨counts, rfl, fun i hi => hhosts i ((hkeys i).2 hi), hmem⟩
  | error err =>
    refine .inr ⟨?_, fun hhosts => ?_⟩
    · obtain ⟨_, _, -, herr⟩ := exists_of_foldlM_eq_error h
      exact (passDown_eq_error herr).imp (congrArg _) (congrArg _)
    · have hstep : ∀ c i, i ∈ (rootCounts (first :: rest)).keys.reverse →
          (∀ k, k ∈ c ↔ Reached (first :: rest) k) →
          ∃ c', passDown first.arena c i = .ok c' ∧ ∀ k, k ∈ c' ↔ Reached (first :: rest) k := by
        intro c i hi hc
        obtain ⟨hsize, hops⟩ := hhosts i ((hkeys i).1 hi)
        obtain ⟨c', hpass, hmem⟩ := exists_passDown hsize fun j hj => (hc j).2 (hops j hj)
        exact ⟨c', hpass, fun k => (hmem k).trans (hc k)⟩
      obtain ⟨counts, hok, -⟩ := exists_foldlM hstep fun _ => mem_rootCounts_iff
      cases h.symm.trans hok

/-! ## Declaring in the first arena -/

/-- From the node, through operations that are not declared, only operations are met whose counts
are as `fits` says. -/
inductive Clear (a : Arena) (counts : Counts) (declared fits : Nat → Prop) : Node → Prop
  | declared {n : Node} (h : declared n.id) : Clear a counts declared fits n
  | leaf {n : Node} {x : Leaf} (h : n.label = .leaf x) : Clear a counts declared fits n
  | operation {n nl nr : Node} {op : Op} {l r : Nat} (h : n.label = .binary op l r)
      (hl : a.node? l = some nl)
      (hr : a.node? r = some nr) (hmem : n.id ∈ counts) (hfits : fits (counts.getD n.id 0))
      (hcl : Clear a counts declared fits nl) (hcr : Clear a counts declared fits nr) :
        Clear a counts declared fits n

theorem Clear.mono {declared declared' fits fits' : Nat → Prop} {n : Node}
    (h : Clear a counts declared fits n) (hdeclared : ∀ i, declared i → declared' i)
    (hfits : ∀ i ∈ counts, fits (counts.getD i 0) → fits' (counts.getD i 0)) :
    Clear a counts declared' fits' n := by
  induction h with
  | declared h => exact .declared (hdeclared _ h)
  | leaf h => exact .leaf h
  | operation h hl hr hmem hf _ _ ihl ihr => exact .operation h hl hr hmem (hfits _ hmem hf) ihl ihr

/-- The nodes declared are listed once each, and are counted. -/
structure Declared.Listed (counts : Counts) (d : Declared) : Prop where
  contains_iff : ∀ i : Nat, d.scope.contains i = true ↔ i ∈ d.order.toList
  nodup : d.order.toList.Nodup
  counted : ∀ i ∈ d.order.toList, i ∈ counts

/-- Further nodes have been declared, none of them above `top`. -/
structure Declared.Adds (counts : Counts) (top : Nat) (d d' : Declared) : Prop where
  listed : d'.Listed counts
  kept : ∀ i : Nat, d.scope.contains i = true → d'.scope.contains i = true
  added : ∀ i : Nat, d'.scope.contains i = true → d.scope.contains i = true ∨ i ≤ top

theorem Declared.Listed.adds {d : Declared} (h : d.Listed counts) (top : Nat) :
    d.Adds counts top d :=
  ⟨h, fun _ hi => hi, fun _ hi => .inl hi⟩

theorem Declared.Adds.trans {top top₁ top₂ : Nat} {d d₁ d₂ : Declared} (h₁ : d.Adds counts top₁ d₁)
    (h₂ : d₁.Adds counts top₂ d₂) (hle₁ : top₁ ≤ top) (hle₂ : top₂ ≤ top) :
    d.Adds counts top d₂ := by
  refine ⟨h₂.listed, fun i hi => h₂.kept i (h₁.kept i hi), fun i hi => ?_⟩
  rcases h₂.added i hi with hi | hi
  · exact (h₁.added i hi).imp_right fun hi => by omega
  · exact .inr (by omega)

theorem Declared.Listed.add {d : Declared} (h : d.Listed counts) {i : Nat}
    (hnew : ¬ d.scope.contains i = true) (hi : i ∈ counts) :
    ∃ d', d.add i = .ok d' ∧ d.Adds counts i d' ∧ d'.scope.contains i = true := by
  obtain ⟨scope, hscope⟩ := Scope.exists_declare hnew
  have hcontains : ∀ j : Nat, scope.contains j = true ↔ d.scope.contains j = true ∨ j = i := by
    intro j
    rw [Scope.declare_eq_ok hscope, Nat.cast_inj]
  refine ⟨⟨scope, d.order.push i⟩, by rw [Declared.add, hscope]; rfl,
    ⟨⟨fun j => ?_, ?_, fun j hj => ?_⟩, fun j hj => ?_, fun j hj => ?_⟩, (hcontains i).2 (.inr rfl)⟩
  · rw [hcontains, h.contains_iff, Array.toList_push, List.mem_append, List.mem_singleton]
  · rw [Array.toList_push, List.nodup_append_comm, List.singleton_append, List.nodup_cons]
    exact ⟨by rwa [← h.contains_iff], h.nodup⟩
  · rw [Array.toList_push, List.mem_append, List.mem_singleton] at hj
    exact hj.elim (h.counted j) fun heq => heq ▸ hi
  · exact (hcontains j).2 (.inl hj)
  · exact ((hcontains j).1 hj).imp_right Nat.le_of_eq

/-- Where the way is clear for a level, its operations are declared, and then the way is clear for
those of smaller counts. -/
theorem Clear.declareLevel {level : Nat} {declared : Nat → Prop} {n : Node}
    (h : Clear a counts declared (· ≤ level) n) (hrank : n.label.rank ≤ n.id) {d : Declared}
    (hd : d.Listed counts) (hdeclared : ∀ i, declared i → d.scope.contains i = true) :
    ∃ d', Plan.declareLevel a counts level n d = .ok d' ∧ d.Adds counts n.id d' ∧
      Clear a counts (fun i => d'.scope.contains i = true) (· < level) n := by
  induction h generalizing d with
  | declared h =>
    exact ⟨d, declareLevel_declared (hdeclared _ h), hd.adds _, .declared (hdeclared _ h)⟩
  | leaf h => exact ⟨d, declareLevel_leaf h d, hd.adds _, .leaf h⟩
  | @operation n nl nr op l r h hl hr hmem hle _ _ ihl ihr =>
    by_cases hin : d.scope.contains n.id = true
    · exact ⟨d, declareLevel_declared hin, hd.adds _, .declared hin⟩
    · have hil := Arena.id_of_node? hl
      have hir := Arena.id_of_node? hr
      rw [h, Label.rank] at hrank
      obtain ⟨d₁, h₁, hg₁, hc₁⟩ := ihl (hil ▸ Arena.rank_le_of_node? hl) hd hdeclared
      obtain ⟨d₂, h₂, hg₂, hc₂⟩ := ihr (hir ▸ Arena.rank_le_of_node? hr) hg₁.listed fun i hi =>
        hg₁.kept i (hdeclared i hi)
      have hg : d.Adds counts (max l r) d₂ := hg₁.trans hg₂ (by omega) (by omega)
      rw [declareLevel_binary h hl hr hmem (by omega) hin h₁ h₂]
      split
      · -- what was declared below the operands has smaller ids
        have hnew : ¬ d₂.scope.contains n.id = true :=
          fun hn => (hg.added n.id hn).elim hin fun hle => by omega
        obtain ⟨d', hadd, hg', hn⟩ := hg.listed.add hnew hmem
        exact ⟨d', hadd, hg.trans hg' (by omega) (by omega), .declared hn⟩
      · have hcl : Clear a counts (fun i => d₂.scope.contains i = true) (· < level) nl :=
          hc₁.mono hg₂.kept fun _ _ hf => hf
        exact ⟨d₂, rfl, hg.trans (hg.listed.adds n.id) (by omega) (by omega),
          .operation h hl hr hmem (by omega) hcl hc₂⟩

theorem Clear.declareRoots {level : Nat} {declared : Nat → Prop}
    (h : ∀ c ∈ cs, Clear a counts declared (· ≤ level) c.node) {d : Declared} (hd : d.Listed counts)
    (hdeclared : ∀ i, declared i → d.scope.contains i = true) :
    ∃ d', cs.foldlM (fun d c => Plan.declareLevel a counts level c.node d) d = .ok d' ∧
      d'.Listed counts ∧ (∀ i : Nat, d.scope.contains i = true → d'.scope.contains i = true) ∧
      ∀ c ∈ cs, Clear a counts (fun i => d'.scope.contains i = true) (· < level) c.node := by
  induction cs generalizing d with
  | nil => exact ⟨d, rfl, hd, fun _ hi => hi, by simp⟩
  | cons c cs ih =>
    have hrank : c.node.label.rank ≤ c.node.id := by
      rw [Arena.id_of_node? c.node?_id]
      exact Arena.rank_le_of_node? c.node?_id
    obtain ⟨d₁, h₁, hg, hc⟩ := (h c List.mem_cons_self).declareLevel hrank hd hdeclared
    obtain ⟨d₂, h₂, hd₂, hkept, hcs⟩ :=
      ih (fun e he => h e (List.mem_cons_of_mem c he)) hg.listed
        fun i hi => hg.kept i (hdeclared i hi)
    refine ⟨d₂, ?_, hd₂, fun i hi => hkept i (hg.kept i hi),
      List.forall_mem_cons.2 ⟨hc.mono hkept fun _ _ hf => hf, hcs⟩⟩
    rw [List.foldlM_cons, h₁]
    exact h₂

/-- Level after level is declared. Counts that fit are one at most, or those of levels that are
still to come; all others are larger than these. -/
theorem Clear.declareLevels {ls : List Nat} (hls : ∀ l ∈ ls, 1 < l) (hdesc : ls.Pairwise (· > ·))
    {fits : Nat → Prop} {d : Declared}
    (h : ∀ c ∈ cs, Clear a counts (fun i => d.scope.contains i = true) fits c.node)
    (hfits : ∀ i ∈ counts, fits (counts.getD i 0) → counts.getD i 0 ≤ 1 ∨ counts.getD i 0 ∈ ls)
    (hlarge : ∀ k, ¬ fits k → ∀ l ∈ ls, l < k) (hd : d.Listed counts) :
    ∃ d', ls.foldlM
      (fun d level => cs.foldlM (fun d c => Plan.declareLevel a counts level c.node d) d) d =
        .ok d' ∧
      d'.Listed counts := by
  induction ls generalizing d fits with
  | nil => exact ⟨d, rfl, hd⟩
  | cons level ls ih =>
    rw [List.pairwise_cons] at hdesc
    have hlevel := hls level List.mem_cons_self
    -- levels decrease, so no count that fits is larger than this level
    have hle : ∀ i ∈ counts, fits (counts.getD i 0) → counts.getD i 0 ≤ level := by
      intro i hi hf
      rcases hfits i hi hf with hone | hm
      · omega
      · rcases List.mem_cons.1 hm with heq | hm
        · omega
        · exact Nat.le_of_lt (hdesc.1 _ hm)
    obtain ⟨d₁, h₁, hd₁, -, hclear⟩ :=
      declareRoots (fun c hc => (h c hc).mono (fun _ hi => hi) hle) hd fun _ hi => hi
    have hfits' : ∀ i ∈ counts, counts.getD i 0 < level → counts.getD i 0 ≤ 1 ∨
        counts.getD i 0 ∈ ls := by
      intro i hi hlt
      have hf : fits (counts.getD i 0) := by
        by_contra hno
        have := hlarge _ hno level List.mem_cons_self
        omega
      refine (hfits i hi hf).imp_right fun hm => (List.mem_cons.1 hm).resolve_left ?_
      omega
    have hlarge' : ∀ k, ¬ k < level → ∀ l ∈ ls, l < k := fun k hk l hl => by
      have := hdesc.1 l hl
      omega
    obtain ⟨d', h', hd'⟩ :=
      ih (fun l hl => hls l (List.mem_cons_of_mem level hl)) hdesc.2 hclear hfits' hlarge' hd₁
    refine ⟨d', ?_, hd'⟩
    rw [List.foldlM_cons, h₁]
    exact h'

/-- Below nodes of an arena that hosts the circuits there is nothing but counted nodes. -/
theorem clear_of_hosts (hhosts : a.Hosts cs) (hmem : ∀ i, i ∈ counts ↔ Reached cs i)
    (declared : Nat → Prop) {n : Node} (hn : ∀ j ∈ n.label.children, Reached cs j)
    (hi : Reached cs n.id) : Clear a counts declared (fun _ => True) n := by
  induction hk : n.label.rank using Nat.strongRecOn generalizing n with
  | ind k ih =>
    cases hx : n.label with
    | leaf x => exact .leaf hx
    | binary op l r =>
      have hoperand : ∀ j, (j = l ∨ j = r) → ∃ m, a.node? j = some m ∧
          Clear a counts declared (fun _ => True) m := by
        intro j hj
        have hreached : Reached cs j := hn j (by simpa [hx, Label.children] using hj)
        obtain ⟨hsize, hops⟩ := hhosts j hreached
        obtain ⟨m, hm⟩ := Arena.exists_node? hsize
        have hrank := Arena.rank_le_of_node? hm
        rw [hx, Label.rank] at hk
        refine ⟨m, hm,
          ih m.label.rank (by omega) (fun i hi => hops i ((Arena.hasOperand_iff hm).2 hi)) ?_ rfl⟩
        rwa [Arena.id_of_node? hm]
      obtain ⟨nl, hnl, hcl⟩ := hoperand l (.inl rfl)
      obtain ⟨nr, hnr, hcr⟩ := hoperand r (.inr rfl)
      exact .operation hx hnl hnr ((hmem n.id).2 hi) trivial hcl hcr

/-! ## Plans -/

/-- Circuits of any arenas are refused because two of them reach one id, or because the first arena
does not host them, or they have a plan, which lists nodes of the first arena, each once. -/
theorem ofCircuits_cases {first : Circuit} {rest : List Circuit}
    (hnames : NamesApart (first :: rest)) :
    (∃ plan, Plan.ofCircuits (first :: rest) = .ok plan ∧ ¬ Collide (first :: rest) ∧
      first.arena.Hosts (first :: rest) ∧
      plan.order.Nodup ∧ ∀ i ∈ plan.order, i < first.arena.size) ∨
    (∃ i, Plan.ofCircuits (first :: rest) = .error (.repeatedId i)) ∧ Collide (first :: rest) ∨
    (Plan.ofCircuits (first :: rest) = .error .unknownNode ∨
      Plan.ofCircuits (first :: rest) = .error .uncountedNode) ∧
      ¬ Collide (first :: rest) ∧ ¬ first.arena.Hosts (first :: rest) := by
  unfold Plan.ofCircuits
  rcases checkIds_cases hnames with ⟨hids, hcollide⟩ | ⟨⟨i, hids⟩, hcollide⟩
  · rcases countPaths_cases first rest with ⟨counts, hcounts, hhosts, hmem⟩ | ⟨hcounts, hhosts⟩
    · have hclear : ∀ c ∈ first :: rest,
        Clear first.arena counts (fun i => Scope.empty.contains i = true) (fun _ => True)
          c.node := by
        intro c hc
        have hid := Arena.id_of_node? c.node?_id
        refine clear_of_hosts hhosts hmem _ (fun j hj => ⟨c, hc, .single ?_⟩) ⟨c, hc, hid ▸ .refl⟩
        exact (Arena.hasOperand_iff c.node?_id).2 hj
      have hlisted : (⟨.empty, #[]⟩ : Declared).Listed counts :=
        ⟨by simp [Scope.contains_empty], by simp, by simp⟩
      obtain ⟨d, hd, hlisted⟩ :=
        Clear.declareLevels (fun l hl => (mem_levels.1 hl).1) (pairwise_levels counts) hclear
          (fun i hi _ => (Nat.lt_or_ge 1 (counts.getD i 0)).symm.imp_right fun hlt =>
            mem_levels.2 ⟨hlt, i, hi, rfl⟩) (by simp) hlisted
      refine .inl ⟨⟨counts, d.order.toList⟩, ?_, hcollide, hhosts, hlisted.nodup, fun i hi => ?_⟩
      · simp only [hids, hcounts, hd, bind, Except.bind]
        rfl
      · exact (hhosts i ((hmem i).1 (hlisted.counted i hi))).1
    · refine .inr (.inr ⟨?_, hcollide, hhosts⟩)
      simp only [hids, bind, Except.bind]
      exact hcounts.imp (fun h => by simp only [h]) fun h => by simp only [h]
  · refine .inr (.inl ⟨⟨i, ?_⟩, hcollide⟩)
    simp only [hids, bind, Except.bind]

end Plan

end AirCompiler
