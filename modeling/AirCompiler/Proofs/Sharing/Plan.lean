import AirCompiler.Proofs.Computation
import AirCompiler.Proofs.Sharing.Counts

/-!
# Sharing plans

Operations that are counted more than once are declared level by level, a level for each count,
largest first (`Plan.levels`). While one level is declared, all operations of larger counts are
declared already (`Declared.AtLevel`). As counts grow towards the leaves, that covers every operand
of a larger count, so no check of `Plan.declareLevel` fails.

* `Plan.declareLevel_spec`: declaring the operations of a level below a node succeeds.
* `Plan.checkIds_cases`: ids are refused if and only if two circuits of different arenas reach one
  of them (`Collide`).
* `Plan.exists_ofCircuits`: circuits of one arena have a plan. It lists exactly the operations below
  them that are counted more than once, each after its operands and by decreasing count
  (`Plan.Ordered`).
-/

namespace AirCompiler

/-! ## Scopes -/

theorem Scope.contains_empty (id : Int) : Scope.empty.contains id = false :=
  Std.TreeSet.contains_emptyc

theorem Scope.declare_eq_ok {s s' : Scope} {id : Int} (h : s.declare id = .ok s') (j : Int) :
    s'.contains j = true ↔ s.contains j = true ∨ j = id := by
  unfold declare at h
  split at h
  · cases h
  · cases h
    simp only [contains, Std.TreeSet.contains_insert, Bool.or_eq_true, beq_iff_eq,
      Std.LawfulEqOrd.compare_eq_iff_eq]
    rw [or_comm, eq_comm (a := id)]

theorem Scope.exists_declare {s : Scope} {id : Int} (h : ¬ s.contains id = true) :
    ∃ s', s.declare id = .ok s' := by
  rw [declare, if_neg h]
  exact ⟨_, rfl⟩

/-- Nodes other than the one declared are as new as before. -/
theorem Scope.new_of_declare {s s' : Scope} {i : Nat} (h : s.declare i = .ok s')
    {is : List Nat} (hi : i ∉ is) (hnew : ∀ j ∈ is, ¬ s.contains j = true) :
    ∀ j ∈ is, ¬ s'.contains j = true := by
  intro j hj
  have hne : (j : Int) ≠ i := by
    intro heq
    exact hi (Int.ofNat.inj heq ▸ hj)
  rw [declare_eq_ok h]
  exact not_or.2 ⟨hnew j hj, hne⟩

/-! ## Circuits of several arenas -/

/-- Two of the circuits, of different arenas, reach one id. -/
def Collide (cs : List Circuit) : Prop :=
  ∃ c ∈ cs, ∃ d ∈ cs, c.arena ≠ d.arena ∧ ∃ i, c.arena.Reaches c.id i ∧ d.arena.Reaches d.id i

/-- Circuits of arenas of one name are circuits of one arena. -/
def NamesApart (cs : List Circuit) : Prop :=
  ∀ c ∈ cs, ∀ d ∈ cs, c.arena.name = d.arena.name → c.arena = d.arena

namespace Plan

variable {a : Arena} {cs : List Circuit} {counts : Counts}

/-! ## Orders -/

/-- An order of operations that are counted more than once: each stands once, by decreasing count,
after its operands. -/
inductive Ordered (a : Arena) (counts : Counts) : List Nat → Prop
  | nil : Ordered a counts []
  | snoc {is : List Nat} {i : Nat} : Ordered a counts is → i ∉ is → i ∈ counts → a.IsOperation i →
      1 < counts.getD i 0 →
      (∀ j ∈ is, counts.getD i 0 ≤ counts.getD j 0) →
      (∀ j, a.HasOperand i j → a.IsOperation j → j ∈ is) → Ordered a counts (is ++ [i])

namespace Ordered

variable {is : List Nat}

theorem nodup (h : Ordered a counts is) : is.Nodup := by
  induction h with
  | nil => exact List.nodup_nil
  | snoc _ hnew _ _ _ _ _ ih =>
    refine List.nodup_append.2 ⟨ih, List.nodup_singleton _, fun j hj k hk heq => hnew ?_⟩
    rwa [← List.mem_singleton.1 hk, ← heq]

theorem counted (h : Ordered a counts is) {i : Nat} (hi : i ∈ is) :
    i ∈ counts ∧ a.IsOperation i ∧ 1 < counts.getD i 0 := by
  induction h with
  | nil => cases hi
  | snoc _ _ hmem hop hcount _ _ ih =>
    rcases List.mem_append.1 hi with hi | hi
    · exact ih hi
    · obtain rfl := List.mem_singleton.1 hi
      exact ⟨hmem, hop, hcount⟩

theorem operand (h : Ordered a counts is) {i j : Nat} (hi : i ∈ is) (hij : a.HasOperand i j)
    (hj : a.IsOperation j) : j ∈ is := by
  induction h with
  | nil => cases hi
  | snoc _ _ _ _ _ _ hops ih =>
    rcases List.mem_append.1 hi with hi | hi
    · exact List.mem_append_left _ (ih hi)
    · obtain rfl := List.mem_singleton.1 hi
      exact List.mem_append_left _ (hops j hij hj)

/-- With an operation, all operations below it are listed. -/
theorem reaches (h : Ordered a counts is) {i j : Nat} (hi : i ∈ is) (hij : a.Reaches i j)
    (hj : a.IsOperation j) : j ∈ is := by
  induction hij with
  | refl => exact hi
  | tail _ hkj ih => exact h.operand (ih hkj.isOperation) hkj hj

end Ordered

/-! ## One level -/

/-- What is declared while the operations of one count are: only operations of this count or a
larger one, and all of larger counts. -/
structure Declared.AtLevel (a : Arena) (counts : Counts) (level : Nat) (d : Declared) : Prop where
  contains_iff : ∀ i : Nat, d.scope.contains i = true ↔ i ∈ d.order.toList
  ordered : Ordered a counts d.order.toList
  level_le : ∀ i ∈ d.order.toList, level ≤ counts.getD i 0
  above : ∀ i ∈ counts, a.IsOperation i → level < counts.getD i 0 → i ∈ d.order.toList

theorem Declared.AtLevel.add {level i : Nat} {d : Declared} (h : d.AtLevel a counts level)
    (hlevel : 1 < level) (hnew : i ∉ d.order.toList) (hmem : i ∈ counts) (hop : a.IsOperation i)
    (hcount : counts.getD i 0 = level)
    (hops : ∀ j, a.HasOperand i j → a.IsOperation j → j ∈ d.order.toList) :
    ∃ d', d.add i = .ok d' ∧ d'.order.toList = d.order.toList ++ [i] ∧
      d'.AtLevel a counts level := by
  have hundeclared : ¬ d.scope.contains i = true := by rwa [h.contains_iff]
  obtain ⟨scope, hscope⟩ := Scope.exists_declare hundeclared
  refine ⟨⟨scope, d.order.push i⟩, by rw [Declared.add, hscope]; rfl,
    Array.toList_push, ?_, ?_, ?_, ?_⟩
  · intro j
    rw [Scope.declare_eq_ok hscope, h.contains_iff, Array.toList_push]
    simp
  · rw [Array.toList_push]
    exact .snoc h.ordered hnew hmem hop (by omega) (fun j hj => hcount ▸ h.level_le j hj) hops
  · intro j hj
    rw [Array.toList_push] at hj
    rcases List.mem_append.1 hj with hj | hj
    · exact h.level_le j hj
    · rw [List.mem_singleton.1 hj, hcount]
  · intro j hj hjop hlt
    rw [Array.toList_push]
    exact List.mem_append_left _ (h.above j hj hjop hlt)

/-- The operations of the level among the nodes with `P` have been declared, and none else. -/
structure Declared.Covers (a : Arena) (counts : Counts) (level : Nat) (P : Nat → Prop)
    (d d' : Declared) : Prop where
  atLevel : d'.AtLevel a counts level
  kept : ∀ j ∈ d.order.toList, j ∈ d'.order.toList
  added : ∀ j ∈ d'.order.toList, j ∈ d.order.toList ∨ P j
  covered : ∀ j, P j → a.IsOperation j → level ≤ counts.getD j 0 → j ∈ d'.order.toList

namespace Declared.Covers

variable {level : Nat} {P Q : Nat → Prop} {d d₁ d₂ : Declared}

theorem refl (h : d.AtLevel a counts level)
    (hP : ∀ j, P j → a.IsOperation j → level ≤ counts.getD j 0 → j ∈ d.order.toList) :
    d.Covers a counts level P d :=
  ⟨h, fun _ hj => hj, fun _ hj => .inl hj, hP⟩

theorem trans (h₁ : d.Covers a counts level P d₁) (h₂ : d₁.Covers a counts level Q d₂) :
    d.Covers a counts level (fun j => P j ∨ Q j) d₂ := by
  refine ⟨h₂.atLevel, fun j hj => h₂.kept j (h₁.kept j hj), fun j hj => ?_, ?_⟩
  · rcases h₂.added j hj with hj | hj
    · exact (h₁.added j hj).imp_right .inl
    · exact .inr (.inr hj)
  · rintro j (hj | hj) hop hle
    · exact h₂.kept j (h₁.covered j hj hop hle)
    · exact h₂.covered j hj hop hle

/-- After the nodes below its operands, the operation itself is declared if it is of the level. -/
theorem node {op : Op} {i l r : Nat} (hl : a.label? i = some (.binary op l r))
    (h : d.Covers a counts level (fun j => a.Reaches l j ∨ a.Reaches r j) d₁) (hlevel : 1 < level)
    (hundeclared : i ∉ d.order.toList) (hmem : i ∈ counts) (hcount : counts.getD i 0 ≤ level)
    (hops : ∀ j, a.HasOperand i j → counts.getD i 0 ≤ counts.getD j 0) :
    ∃ d', (if counts.getD i 0 = level then d₁.add i else .ok d₁) = .ok d' ∧
      d.Covers a counts level (a.Reaches i) d' := by
  obtain ⟨hil, hir⟩ := Arena.operands_lt hl
  have hadded : ∀ j ∈ d₁.order.toList, j ∈ d.order.toList ∨ a.Reaches i j := fun j hj =>
    (h.added j hj).imp_right fun hj => (Arena.reaches_binary hl).2 (.inr hj)
  split
  · rename_i heq
    -- what was added has smaller ids
    have hnew : i ∉ d₁.order.toList := by
      intro hm
      rcases h.added i hm with hm | hm | hm
      · exact hundeclared hm
      · have := hm.le
        omega
      · have := hm.le
        omega
    -- its operands have no smaller count, so they are declared by now
    have hoperands : ∀ j, a.HasOperand i j → a.IsOperation j → j ∈ d₁.order.toList := by
      intro j hj hop
      refine h.covered j ?_ hop (heq ▸ hops j hj)
      exact ((Arena.reaches_binary hl).1 (.single hj)).resolve_left (Nat.ne_of_lt hj.lt)
    obtain ⟨d', hd', horder, hat⟩ := h.atLevel.add hlevel hnew hmem ⟨op, l, r, hl⟩ heq hoperands
    refine ⟨d', hd', hat, fun j hj => ?_, fun j hj => ?_, fun j hj hop hle => ?_⟩
    · rw [horder]
      exact List.mem_append_left _ (h.kept j hj)
    · rw [horder, List.mem_append, List.mem_singleton] at hj
      rcases hj with hj | rfl
      · exact hadded j hj
      · exact .inr .refl
    · rw [horder, List.mem_append, List.mem_singleton]
      exact ((Arena.reaches_binary hl).1 hj).symm.imp_left fun hj => h.covered j hj hop hle
  · rename_i hne
    refine ⟨d₁, rfl, h.atLevel, h.kept, hadded, fun j hj hop hle => h.covered j ?_ hop hle⟩
    refine ((Arena.reaches_binary hl).1 hj).resolve_left ?_
    rintro rfl
    omega

end Declared.Covers

/-- Counts are closed under operands, and operands have no smaller ones. -/
def Grows (a : Arena) (counts : Counts) : Prop :=
  ∀ i ∈ counts, ∀ j, a.HasOperand i j → j ∈ counts ∧ counts.getD i 0 ≤ counts.getD j 0

theorem declareLevel_leaf {level : Nat} {n : Node} {x : Leaf}
    (hx : n.label = .leaf x) (d : Declared) : declareLevel a counts level n d = .ok d := by
  rw [declareLevel]
  split
  · rfl
  · rename_i hbinary
    rw [hx] at hbinary
    cases hbinary

theorem declareLevel_declared {level : Nat} {n : Node} {d : Declared}
    (h : d.scope.contains n.id = true) : declareLevel a counts level n d = .ok d := by
  rw [declareLevel]
  split
  · rfl
  · rw [if_pos h]

/-- An operation that is still to be declared comes after what is below its operands. -/
theorem declareLevel_binary {level : Nat} {n nl nr : Node} {op : Op} {l r : Nat}
    (hx : n.label = .binary op l r) (hl : a.node? l = some nl) (hr : a.node? r = some nr)
    (hmem : n.id ∈ counts) (hle : ¬ level < counts.getD n.id 0) {d d₁ d₂ : Declared}
    (hd : ¬ d.scope.contains n.id = true) (h₁ : declareLevel a counts level nl d = .ok d₁)
    (h₂ : declareLevel a counts level nr d₁ = .ok d₂) :
    declareLevel a counts level n d = if counts.getD n.id 0 = level then d₂.add n.id
      else .ok d₂ := by
  have hget : counts[n.id]? = some (counts.getD n.id 0) := Std.TreeMap.getElem?_eq_some_getD hmem
  rw [declareLevel]
  split
  · rename_i hleaf
    rw [hx] at hleaf
    cases hleaf
  · rename_i op' l' r' hbinary
    rw [hx] at hbinary
    cases hbinary
    simp only [hget, if_neg hle, if_neg hd]
    split
    · rename_i nl' nr' hnl hnr
      rw [hl, Option.some.injEq] at hnl
      rw [hr, Option.some.injEq] at hnr
      subst hnl hnr
      simp only [h₁, h₂, bind, Except.bind]
    · rename_i hno
      exact absurd hr (hno nl nr hl)

/-- Declaring the operations of a level below a node succeeds. -/
theorem declareLevel_spec (hcounts : Grows a counts) {level : Nat} (hlevel : 1 < level) {n : Node}
    (hn : a.node? n.id = some n) (hmem : n.id ∈ counts) {d : Declared}
    (hd : d.AtLevel a counts level) :
    ∃ d', declareLevel a counts level n d = .ok d' ∧
      d.Covers a counts level (a.Reaches n.id) d' := by
  induction hk : n.label.rank using Nat.strongRecOn generalizing n d with
  | ind k ih =>
    have hlabel := Arena.label?_of_node? hn
    cases hx : n.label with
    | leaf x =>
      rw [hx] at hlabel
      refine ⟨d, declareLevel_leaf hx d, .refl hd fun j hj hop _ => ?_⟩
      rw [Arena.reaches_leaf hlabel] at hj
      exact absurd (hj ▸ hop) (Arena.not_isOperation_leaf hlabel)
    | binary op l r =>
      rw [hx] at hlabel
      by_cases hdeclared : d.scope.contains n.id = true
      · -- with the operation, all operations below it are declared already
        have hin := (hd.contains_iff n.id).1 hdeclared
        exact ⟨d, declareLevel_declared hdeclared,
          .refl hd fun j hj hop _ => hd.ordered.reaches hin hj hop⟩
      · have hundeclared : n.id ∉ d.order.toList := by rwa [← hd.contains_iff]
        have hle : ¬ level < counts.getD n.id 0 :=
          fun hlt => hundeclared (hd.above n.id hmem ⟨op, l, r, hlabel⟩ hlt)
        obtain ⟨hll, hrl⟩ := Arena.operands_lt hlabel
        have hlt := Arena.lt_of_node? hn
        obtain ⟨nl, hnl⟩ := Arena.exists_node? (a := a) (i := l) (by omega)
        obtain ⟨nr, hnr⟩ := Arena.exists_node? (a := a) (i := r) (by omega)
        have hil := Arena.id_of_node? hnl
        have hir := Arena.id_of_node? hnr
        have hrankl := Arena.rank_le_of_node? hnl
        have hrankr := Arena.rank_le_of_node? hnr
        rw [hx, Label.rank] at hk
        have hml := (hcounts n.id hmem l ⟨op, l, r, hlabel, .inl rfl⟩).1
        have hmr := (hcounts n.id hmem r ⟨op, l, r, hlabel, .inr rfl⟩).1
        obtain ⟨d₁, h₁, hc₁⟩ := ih nl.label.rank (by omega) (hil ▸ hnl) (hil ▸ hml) hd rfl
        obtain ⟨d₂, h₂, hc₂⟩ := ih nr.label.rank (by omega) (hir ▸ hnr) (hir ▸ hmr) hc₁.atLevel rfl
        rw [hil] at hc₁
        rw [hir] at hc₂
        rw [declareLevel_binary hx hnl hnr hmem hle hdeclared h₁ h₂]
        exact (hc₁.trans hc₂).node hlabel hlevel hundeclared hmem (Nat.le_of_not_lt hle) fun j hj =>
          (hcounts n.id hmem j hj).2

theorem declareRoots_spec (hcounts : Grows a counts) {level : Nat} (hlevel : 1 < level)
    (ha : ∀ c ∈ cs, c.arena = a) (hmem : ∀ c ∈ cs, c.id ∈ counts) {d : Declared}
    (hd : d.AtLevel a counts level) :
    ∃ d', cs.foldlM (fun d c => declareLevel a counts level c.node d) d = .ok d' ∧
      d.Covers a counts level (Below a cs) d' := by
  induction cs generalizing d with
  | nil => exact ⟨d, rfl, .refl hd fun j hj => absurd hj (by simp [Below])⟩
  | cons c cs ih =>
    have hnode : a.node? c.id = some c.node := ha c List.mem_cons_self ▸ c.node?_id
    have hid := Arena.id_of_node? hnode
    obtain ⟨d₁, h₁, hc₁⟩ :=
      declareLevel_spec hcounts hlevel (hid ▸ hnode) (hid ▸ hmem c List.mem_cons_self) hd
    obtain ⟨d₂, h₂, hc₂⟩ := ih (fun e he => ha e (List.mem_cons_of_mem c he))
      (fun e he => hmem e (List.mem_cons_of_mem c he)) hc₁.atLevel
    refine ⟨d₂, ?_, ?_⟩
    · rw [List.foldlM_cons, h₁]
      exact h₂
    · have hbelow : Below a (c :: cs) = fun j => a.Reaches c.node.id j ∨ Below a cs j := by
        funext j
        rw [hid]
        simp only [Below, List.exists_mem_cons_iff]
      rw [hbelow]
      exact hc₁.trans hc₂

/-! ## All levels -/

theorem mem_values {counts : Counts} {k : Nat} :
    k ∈ counts.values ↔ ∃ i ∈ counts, counts.getD i 0 = k := by
  have hvalues : counts.values = counts.toList.map Prod.snd := by
    show counts.foldr (fun _ v l => v :: l) [] = _
    rw [Std.TreeMap.foldr_eq_foldr_toList]
    induction counts.toList with
    | nil => rfl
    | cons p ps ih => rw [List.foldr_cons, ih, List.map_cons]
  rw [hvalues, List.mem_map]
  constructor
  · rintro ⟨⟨i, v⟩, hp, rfl⟩
    rw [Std.TreeMap.mem_toList_iff_getElem?_eq_some] at hp
    refine ⟨i, ?_, ?_⟩
    · rw [Std.TreeMap.mem_iff_isSome_getElem?, hp]
      rfl
    · rw [Std.TreeMap.getD_eq_getD_getElem?, hp]
      rfl
  · rintro ⟨i, hi, rfl⟩
    exact ⟨(i, counts.getD i 0),
      Std.TreeMap.mem_toList_iff_getElem?_eq_some.2 (Std.TreeMap.getElem?_eq_some_getD hi), rfl⟩

theorem mem_levels {k : Nat} : k ∈ levels counts ↔ 1 < k ∧ ∃ i ∈ counts, counts.getD i 0 = k := by
  have hinsert : ∀ (ks : List Nat) (set : Std.TreeSet Nat),
      k ∈ ks.foldl (fun set k => set.insert k) set ↔ k ∈ set ∨ k ∈ ks := by
    intro ks
    induction ks with
    | nil => simp
    | cons l ks ih =>
      intro set
      rw [List.foldl_cons, ih, Std.TreeSet.mem_insert, Std.LawfulEqOrd.compare_eq_iff_eq,
        List.mem_cons, eq_comm (a := k)]
      tauto
  simp only [levels, List.mem_reverse, Std.TreeSet.mem_toList, hinsert, List.mem_filter,
    mem_values, decide_eq_true_eq]
  simp [and_comm]

theorem pairwise_levels (counts : Counts) : (levels counts).Pairwise (· > ·) := by
  rw [levels, List.pairwise_reverse]
  exact Std.TreeSet.ordered_toList.imp fun h => Nat.compare_eq_lt.1 h

/-- Declaring level after level succeeds. Every operation of the levels that are not yet done is
still to come. -/
theorem declareLevels_spec (hcounts : Grows a counts) (ha : ∀ c ∈ cs, c.arena = a)
    (hbelow : ∀ i, i ∈ counts ↔ Below a cs i) {ls : List Nat} (hls : ∀ l ∈ ls, 1 < l)
    (hdesc : ls.Pairwise (· > ·)) {d : Declared}
    (hscope : ∀ i : Nat, d.scope.contains i = true ↔ i ∈ d.order.toList)
    (hd : Ordered a counts d.order.toList)
    (hle : ∀ i ∈ d.order.toList, ∀ l ∈ ls, l ≤ counts.getD i 0)
    (hfull : ∀ i ∈ counts, a.IsOperation i → 1 < counts.getD i 0 → i ∈ d.order.toList ∨
      counts.getD i 0 ∈ ls) :
    ∃ d', ls.foldlM
      (fun d level => cs.foldlM (fun d c => declareLevel a counts level c.node d) d) d = .ok d' ∧
      Ordered a counts d'.order.toList ∧
      ∀ i ∈ counts, a.IsOperation i → 1 < counts.getD i 0 → i ∈ d'.order.toList := by
  induction ls generalizing d with
  | nil => exact ⟨d, rfl, hd, fun i hi hop hc => (hfull i hi hop hc).resolve_right (by simp)⟩
  | cons level ls ih =>
    rw [List.pairwise_cons] at hdesc
    have hlevel := hls level List.mem_cons_self
    -- levels decrease, so an operation of a larger count is not among those to come
    have hat : d.AtLevel a counts level := by
      refine ⟨hscope, hd, fun i hi => hle i hi level List.mem_cons_self, fun i hi hop hlt => ?_⟩
      refine (hfull i hi hop (by omega)).resolve_right fun hm => ?_
      rcases List.mem_cons.1 hm with heq | hm
      · omega
      · have := hdesc.1 _ hm
        omega
    obtain ⟨d₁, h₁, hc₁⟩ := declareRoots_spec hcounts hlevel ha
      (fun c hc => (hbelow c.id).2 ⟨c, hc, .refl⟩) hat
    obtain ⟨d', h, hd', hall⟩ :=
      ih (fun l hl => hls l (List.mem_cons_of_mem level hl)) hdesc.2 hc₁.atLevel.contains_iff
      hc₁.atLevel.ordered
      (by
        intro i hi l hl
        have h₁ := hc₁.atLevel.level_le i hi
        have h₂ := hdesc.1 l hl
        omega)
      (by
        intro i hi hop hc
        rcases hfull i hi hop hc with hm | hm
        · exact .inl (hc₁.kept i hm)
        · rcases List.mem_cons.1 hm with heq | hm
          · exact .inl (hc₁.covered i ((hbelow i).1 hi) hop (by omega))
          · exact .inr hm)
    refine ⟨d', ?_, hd', hall⟩
    rw [List.foldlM_cons, h₁]
    exact h

/-! ## Owners of ids -/

/-- The owners noted are those that the relation gives to ids. -/
def Notes (owners : Std.TreeMap Nat Nat) (S : Nat → Nat → Prop) : Prop :=
  ∀ i o, owners[i]? = some o ↔ S i o

/-- The step notes the owners that `R` gives to ids, unless an id has two of them then. -/
def Noting (R : Nat → Nat → Prop)
    (step : Std.TreeMap Nat Nat → Except CompileError (Std.TreeMap Nat Nat)) : Prop :=
  ∀ owners S, Notes owners S →
    (∃ owners', step owners = .ok owners' ∧ Notes owners' fun i o => S i o ∨ R i o) ∨
      ∃ i o o', step owners = .error (.repeatedId i) ∧ (S i o ∨ R i o) ∧ (S i o' ∨ R i o') ∧ o ≠ o'

theorem noting_noteOwner (name : Nat) (n : Node) :
    Noting (fun i o => i = n.id ∧ o = name) fun owners => noteOwner name owners n := by
  intro owners S h
  cases hn : owners[n.id]? with
  | none =>
    refine .inl ⟨owners.insert n.id name, by simp only [noteOwner, hn], fun i o => ?_⟩
    show _ ↔ S i o ∨ i = n.id ∧ o = name
    rw [Std.TreeMap.getElem?_insert, ← h i o]
    by_cases hi : n.id = i
    · subst hi
      simp [hn, eq_comm]
    · simp [hi, eq_comm (a := i)]
  | some o =>
    have ho := (h n.id o).1 hn
    by_cases heq : o = name
    · subst heq
      refine .inl ⟨owners, by simp only [noteOwner, hn, if_true], fun i o' => ?_⟩
      show _ ↔ S i o' ∨ i = n.id ∧ o' = o
      rw [h i o', iff_self_or]
      rintro ⟨rfl, rfl⟩
      exact ho
    · exact .inr ⟨n.id, o, name, by simp only [noteOwner, hn, if_neg heq], .inl ho,
        .inr ⟨rfl, rfl⟩, heq⟩

theorem Noting.foldlM {α : Type} {R : α → Nat → Nat → Prop}
    {f : Std.TreeMap Nat Nat → α → Except CompileError (Std.TreeMap Nat Nat)} {xs : List α}
    (h : ∀ x ∈ xs, Noting (R x) fun owners => f owners x) :
    Noting (fun i o => ∃ x ∈ xs, R x i o) fun owners => xs.foldlM f owners := by
  induction xs with
  | nil =>
    intro owners S hS
    exact .inl ⟨owners, rfl, by simpa using hS⟩
  | cons x xs ih =>
    intro owners S hS
    have hassoc : ∀ i o, (S i o ∨ ∃ y ∈ x :: xs, R y i o) ↔ (S i o ∨ R x i o) ∨
        ∃ y ∈ xs, R y i o := by
      intro i o
      rw [List.exists_mem_cons_iff, or_assoc]
    simp only [List.foldlM_cons, hassoc]
    rcases h x List.mem_cons_self owners S hS with ⟨next, hnext, hS'⟩ | ⟨i, o, o',
      herror, ho, ho', hne⟩
    · simp only [hnext]
      exact ih (fun y hy => h y (List.mem_cons_of_mem x hy)) next _ hS'
    · simp only [herror]
      exact .inr ⟨i, o, o', rfl, .inl ho, .inl ho', hne⟩

/-- The ids of circuits are refused if and only if two circuits of different arenas reach one of
them. -/
theorem checkIds_cases (hnames : NamesApart cs) :
    (checkIds cs = .ok () ∧ ¬ Collide cs) ∨ (∃ i, checkIds cs = .error (.repeatedId i)) ∧
      Collide cs := by
  have hnoting :
      Noting (fun i o => ∃ c ∈ cs, ∃ n ∈ c.walk, i = n.id ∧ o = c.arena.name) fun owners =>
        cs.foldlM (fun owners c => c.walk.foldlM (noteOwner c.arena.name) owners) owners :=
    .foldlM fun c _ => .foldlM fun n _ => noting_noteOwner c.arena.name n
  have howner : ∀ i o, (∃ c ∈ cs, ∃ n ∈ c.walk, i = n.id ∧ o = c.arena.name) ↔
      ∃ c ∈ cs, c.arena.Reaches c.id i ∧ o = c.arena.name := by
    intro i o
    simp only [← Circuit.mem_map_walk, List.mem_map]
    grind
  simp only [howner] at hnoting
  rcases hnoting ∅ (fun _ _ => False) (by simp [Notes]) with ⟨owners, hrun, hnotes⟩ | ⟨i, o,
    o', hrun, ho, ho', hne⟩
  · beta_reduce at hrun
    refine .inl ⟨by rw [checkIds, hrun]; rfl, ?_⟩
    -- an id has one owner only, as it stands in the map
    rintro ⟨c, hc, d, hd, hcd, i, hci, hdi⟩
    have h₁ := (hnotes i c.arena.name).2 (.inr ⟨c, hc, hci, rfl⟩)
    have h₂ := (hnotes i d.arena.name).2 (.inr ⟨d, hd, hdi, rfl⟩)
    exact hcd (hnames c hc d hd (Option.some.inj (h₁.symm.trans h₂)))
  · beta_reduce at hrun
    obtain ⟨c, hc, hci, rfl⟩ := ho.resolve_left id
    obtain ⟨d, hd, hdi, rfl⟩ := ho'.resolve_left id
    exact .inr ⟨⟨i, by rw [checkIds, hrun]; rfl⟩, c, hc, d, hd, fun heq => hne (by rw [heq]),
      i, hci, hdi⟩

/-- Circuits of one arena do not collide. -/
theorem checkIds_eq_ok (ha : ∀ c ∈ cs, c.arena = a) : checkIds cs = .ok () := by
  have hone : ∀ c ∈ cs, ∀ d ∈ cs, c.arena = d.arena :=
    fun c hc d hd => (ha c hc).trans (ha d hd).symm
  rcases checkIds_cases fun c hc d hd _ => hone c hc d hd with ⟨h, -⟩ | ⟨-, c, hc, d, hd, hne, -⟩
  · exact h
  · exact absurd (hone c hc d hd) hne

/-! ## Plans -/

/-- Circuits of one arena have a plan. It lists the operations below them that are counted more than
once. -/
theorem exists_ofCircuits (ha : ∀ c ∈ cs, c.arena = a) :
    ∃ plan, Plan.ofCircuits cs = .ok plan ∧ Counted a cs plan.counts ∧
      Ordered a plan.counts plan.order ∧
      ∀ i, i ∈ plan.order ↔ Below a cs i ∧ a.IsOperation i ∧ 1 < plan.counts.getD i 0 := by
  obtain ⟨counts, hcounts, hcounted⟩ := countPaths_spec ha
  have hgrows : Grows a counts := by
    intro i hi j hj
    have hbelow := (hcounted.mem_iff i).1 hi
    exact ⟨(hcounted.mem_iff j).2 (hbelow.operand hj), hcounted.le_operand ha hbelow hj⟩
  obtain ⟨d, hd, hordered, hall⟩ :=
    declareLevels_spec hgrows ha hcounted.mem_iff (fun l hl => (mem_levels.1 hl).1)
      (pairwise_levels counts) (d := ⟨.empty, #[]⟩)
      (fun i => by simp [Scope.contains_empty]) .nil (by simp)
      fun i hi _ hc => .inr (mem_levels.2 ⟨hc, i, hi, rfl⟩)
  refine ⟨⟨counts, d.order.toList⟩, ?_, hcounted, hordered, fun i => ?_⟩
  · unfold Plan.ofCircuits
    simp only [checkIds_eq_ok ha, hcounts, bind, Except.bind]
    cases cs with
    | nil =>
      have hnone : d.order.toList = [] := by
        rw [List.eq_nil_iff_forall_not_mem]
        intro i hi
        have hbelow := (hcounted.mem_iff i).1 (hordered.counted hi).1
        simp [Below] at hbelow
      rw [hnone]
      rfl
    | cons first rest =>
      rw [← ha first List.mem_cons_self] at hd
      simp only [hd]
      rfl
  · constructor
    · intro hi
      obtain ⟨hmem, hop, hc⟩ := hordered.counted hi
      exact ⟨(hcounted.mem_iff i).1 hmem, hop, hc⟩
    · rintro ⟨hi, hop, hc⟩
      exact hall i ((hcounted.mem_iff i).2 hi) hop hc

theorem spec_of_ofCircuits (ha : ∀ c ∈ cs, c.arena = a) {plan : Plan}
    (h : Plan.ofCircuits cs = .ok plan) :
    Counted a cs plan.counts ∧ Ordered a plan.counts plan.order ∧
      ∀ i, i ∈ plan.order ↔ Below a cs i ∧ a.IsOperation i ∧ 1 < plan.counts.getD i 0 := by
  obtain ⟨plan', h', hspec⟩ := exists_ofCircuits ha
  obtain rfl := Except.ok.inj (h.symm.trans h')
  exact hspec

/-- The nodes of a plan stand below its circuits. -/
theorem below_of_mem_order (ha : ∀ c ∈ cs, c.arena = a) {plan : Plan}
    (h : Plan.ofCircuits cs = .ok plan) {i : Nat} (hi : i ∈ plan.order) : Below a cs i := by
  obtain ⟨-, -, hmem⟩ := spec_of_ofCircuits ha h
  exact ((hmem i).1 hi).1

end Plan

end AirCompiler
