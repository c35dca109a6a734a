import AirCompiler.Proofs.Circuit.Tree

/-!
# Walks

What `Arena.postorder` lists. `Listing a skip ns`: the nodes `ns` stand in the arena, none is
skipped or listed twice, and every operand of a node is skipped or listed before it.

* `listing_postorder`: a walk from a node of the arena yields a listing, and the root is in it
  unless it is skipped.
* `Listing.nodup`, `Listing.operands_before`: the order of a listing, read off the finished list.
* `postorder_induction`: what holds of the root and passes from nodes to their operands holds of all
  listed nodes.
-/

namespace AirCompiler

/-- Nodes of the arena that are not skipped, each once, in an order in which every operand is
skipped or comes first. -/
inductive Listing (a : Arena) (skip : Nat → Bool) : List Node → Prop
  | nil : Listing a skip []
  | snoc {ns : List Node} {n : Node} : Listing a skip ns →
      a.node? n.id = some n → skip n.id = false →
      n.id ∉ ns.map Node.id → (∀ j ∈ n.label.children, skip j = true ∨ j ∈ ns.map Node.id) →
      Listing a skip (ns ++ [n])

/-- What a walk has listed so far is a listing, and the ids seen are those listed. -/
structure Walked.Sound (a : Arena) (skip : Nat → Bool) (w : Walked) : Prop where
  listing : Listing a skip w.order.toList
  seen_iff : ∀ j, w.seen.contains j = true ↔ j ∈ w.order.toList.map Node.id

theorem Walked.sound_empty (a : Arena) (skip : Nat → Bool) : Walked.empty.Sound a skip :=
  ⟨.nil, by simp [Walked.empty]⟩

theorem Walked.seen_push (w : Walked) (n : Node) (j : Nat) :
    (w.push n).seen.contains j = true ↔ w.seen.contains j = true ∨ j = n.id := by
  simp only [Walked.push, Std.TreeSet.contains_insert, Bool.or_eq_true, beq_iff_eq,
    Std.LawfulEqOrd.compare_eq_iff_eq]
  constructor
  · rintro (h | h)
    · exact .inr h.symm
    · exact .inl h
  · rintro (h | h)
    · exact .inr h
    · exact .inl h.symm

theorem Walked.Sound.push {a : Arena} {skip : Nat → Bool} {w : Walked}
    (h : w.Sound a skip) {n : Node} (hn : a.node? n.id = some n) (hs : skip n.id = false)
    (hnew : ¬ w.seen.contains n.id = true)
    (hc : ∀ j ∈ n.label.children, skip j = true ∨ w.seen.contains j = true) :
    (w.push n).Sound a skip := by
  refine ⟨?_, fun j => ?_⟩
  · rw [Walked.push, Array.toList_push]
    refine .snoc h.listing hn hs ?_ fun j hj => (hc j hj).imp_right (h.seen_iff j).1
    rwa [← h.seen_iff]
  · rw [Walked.seen_push, h.seen_iff]
    simp [Walked.push]

/-- The open tasks of a walk, where `known` holds of the ids that are skipped or listed before the
first of them: they are about nodes of the arena, and a node that is left is not skipped, and its
operands are known. -/
def Pending (a : Arena) (skip : Nat → Bool) (known : Nat → Prop) : List WalkTask → Prop
  | [] => True
  | .enter n :: tasks => a.node? n.id = some n ∧ Pending a skip (fun j => known j ∨ j = n.id) tasks
  | .leave n :: tasks =>
    a.node? n.id = some n ∧ skip n.id = false ∧ (∀ j ∈ n.label.children, known j) ∧
      Pending a skip (fun j => known j ∨ j = n.id) tasks

theorem Pending.mono {a : Arena} {skip : Nat → Bool} {tasks : List WalkTask}
    {known known' : Nat → Prop} (h : Pending a skip known tasks) (hk : ∀ j, known j → known' j) :
    Pending a skip known' tasks := by
  induction tasks generalizing known known' with
  | nil => trivial
  | cons t tasks ih =>
    cases t with
    | enter n => exact ⟨h.1, ih h.2 fun j => Or.imp_left (hk j)⟩
    | leave n =>
      exact ⟨h.1, h.2.1, fun j hj => hk j (h.2.2.1 j hj), ih h.2.2.2 fun j => Or.imp_left (hk j)⟩

/-- The node that a task is about. -/
def WalkTask.node : WalkTask → Node
  | .enter n => n
  | .leave n => n

/-- From `w` to `w'` the tasks have been worked through: the listing is sound, nothing is forgotten,
and the node of every task is listed. -/
structure Worked (a : Arena) (skip : Nat → Bool) (tasks : List WalkTask)
    (w w' : Walked) : Prop where
  sound : w'.Sound a skip
  kept : ∀ j, w.seen.contains j = true → w'.seen.contains j = true
  listed : ∀ t ∈ tasks, skip t.node.id = true ∨ w'.seen.contains t.node.id = true

namespace Worked

variable {a : Arena} {skip : Nat → Bool} {tasks : List WalkTask} {w w' : Walked}

theorem pass (h : Worked a skip tasks w w') {t : WalkTask}
    (ht : skip t.node.id = true ∨ w.seen.contains t.node.id = true) :
    Worked a skip (t :: tasks) w w' := by
  refine ⟨h.sound, h.kept, fun u hu => ?_⟩
  rcases List.mem_cons.1 hu with rfl | hu
  · exact ht.imp_right (h.kept _)
  · exact h.listed u hu

theorem push {t : WalkTask} (h : Worked a skip tasks (w.push t.node) w') :
    Worked a skip (t :: tasks) w w' := by
  refine ⟨h.sound, fun j hj => h.kept j ((Walked.seen_push w t.node j).2 (.inl hj)), fun u hu => ?_⟩
  rcases List.mem_cons.1 hu with rfl | hu
  · exact .inr (h.kept _ ((Walked.seen_push w u.node u.node.id).2 (.inr rfl)))
  · exact h.listed u hu

end Worked

namespace Arena

variable {a : Arena} {skip : Nat → Bool}

theorem walkTasks_sound (tasks : List WalkTask) (w : Walked) (hw : w.Sound a skip)
    (ht : Pending a skip (fun j => skip j = true ∨ w.seen.contains j = true) tasks) :
    Worked a skip tasks w (a.walkTasks skip tasks w) := by
  fun_induction Arena.walkTasks a skip tasks w with
  | case1 w => exact ⟨hw, fun _ h => h, by simp⟩
  | case2 w n tasks ih =>
    obtain ⟨hn, hskip, hc, ht⟩ := ht
    by_cases hs : w.seen.contains n.id = true
    · simp only [hs, if_true, dite_true] at ih ⊢
      exact (ih hw (ht.mono fun j hj => hj.elim id fun h => .inr (h ▸ hs))).pass
        (t := .leave n) (.inr hs)
    · simp only [hs, Bool.false_eq_true, if_false, dite_false] at ih ⊢
      exact (ih (hw.push hn hskip hs hc) (ht.mono fun j hj => by rw [Walked.seen_push]; tauto)).push
        (t := .leave n)
  | case3 w n tasks hs ih =>
    obtain ⟨hn, ht⟩ := ht
    rw [Bool.or_eq_true] at hs
    exact (ih hw (ht.mono fun j hj => hj.elim id fun h => h ▸ hs)).pass (t := .enter n) hs
  | case4 w n tasks hs x hl ih =>
    obtain ⟨hn, ht⟩ := ht
    rw [Bool.or_eq_true, not_or, Bool.not_eq_true] at hs
    have hp := hw.push hn hs.1 hs.2 (by simp [hl, Label.children])
    exact (ih hp (ht.mono fun j hj => by rw [Walked.seen_push]; tauto)).push (t := .enter n)
  | case5 w n tasks hs op l r hl nl nr hnl hnr ih =>
    obtain ⟨hn, ht⟩ := ht
    rw [Bool.or_eq_true, not_or, Bool.not_eq_true] at hs
    have hil := id_of_node? hnl
    have hir := id_of_node? hnr
    -- the operands are entered before the node is left
    have h :=
      ih hw ⟨hil ▸ hnl, hir ▸ hnr, hn, hs.1, by simp [hl, Label.children, hil, hir],
        ht.mono fun j hj => by tauto⟩
    refine ⟨h.sound, h.kept, fun t hm => ?_⟩
    rcases List.mem_cons.1 hm with rfl | hm
    · exact h.listed (.leave n) (by simp)
    · exact h.listed t (by simp [hm])
  | case6 w n tasks hs op l r hl hno ih =>
    obtain ⟨hn, ht⟩ := ht
    obtain ⟨h₁, h₂⟩ := operands_lt (hl ▸ label?_of_node? hn)
    have hlt := lt_of_node? hn
    obtain ⟨nl, hnl⟩ := exists_node? (a := a) (i := l) (by omega)
    obtain ⟨nr, hnr⟩ := exists_node? (a := a) (i := r) (by omega)
    exact absurd hnr (hno nl nr hnl)

/-- A walk from a node of the arena lists it and everything below it, operands first. -/
theorem listing_postorder (skip : Nat → Bool) {root : Nat} {n : Node} (hn : a.node? root = some n) :
    Listing a skip (a.postorder skip n) ∧
      (skip root = true ∨ root ∈ (a.postorder skip n).map Node.id) := by
  have hid := id_of_node? hn
  have h := walkTasks_sound [.enter n] .empty (Walked.sound_empty a skip) ⟨hid ▸ hn, trivial⟩
  refine ⟨h.sound.listing, ?_⟩
  have hroot := h.listed (.enter n) (by simp)
  rw [h.sound.seen_iff, WalkTask.node, hid] at hroot
  exact hroot

/-- What holds of the nodes of all tasks and passes from nodes to their operands holds of all that
is listed. -/
theorem walkTasks_induction {P : Node → Prop} (tasks : List WalkTask) (w : Walked)
    (hstep : ∀ n op l r nl nr, P n → n.label = .binary op l r → a.node? l = some nl →
      a.node? r = some nr → P nl ∧ P nr)
    (hw : ∀ n ∈ w.order.toList, P n) (ht : ∀ t ∈ tasks, P t.node) :
    ∀ n ∈ (a.walkTasks skip tasks w).order.toList, P n := by
  have hpush : ∀ {w : Walked} {n : Node}, (∀ m ∈ w.order.toList, P m) → P n →
      ∀ m ∈ (w.push n).order.toList, P m := by
    intro w n hw hn m hm
    simp only [Walked.push, Array.toList_push, List.mem_append, List.mem_singleton] at hm
    rcases hm with hm | rfl
    · exact hw m hm
    · exact hn
  fun_induction Arena.walkTasks a skip tasks w with
  | case1 w => exact hw
  | case2 w n tasks ih =>
    have hn : P n := ht (.leave n) (by simp)
    have ht : ∀ t ∈ tasks, P t.node := fun t hm => ht t (by simp [hm])
    by_cases hs : w.seen.contains n.id = true
    · simp only [hs, if_true, dite_true] at ih ⊢
      exact ih hw ht
    · simp only [hs, Bool.false_eq_true, if_false, dite_false] at ih ⊢
      exact ih (hpush hw hn) ht
  | case3 w n tasks hs ih => exact ih hw fun t hm => ht t (by simp [hm])
  | case4 w n tasks hs x hl ih =>
    exact ih (hpush hw (ht (.enter n) (by simp))) fun t hm => ht t (by simp [hm])
  | case5 w n tasks hs op l r hl nl nr hnl hnr ih =>
    have hn : P n := ht (.enter n) (by simp)
    obtain ⟨h₁, h₂⟩ := hstep n op l r nl nr hn hl hnl hnr
    refine ih hw fun t hm => ?_
    simp only [List.mem_cons] at hm
    rcases hm with rfl | rfl | rfl | hm
    · exact h₁
    · exact h₂
    · exact hn
    · exact ht t (by simp [hm])
  | case6 w n tasks hs op l r hl hno ih => exact ih hw fun t hm => ht t (by simp [hm])

theorem postorder_induction {P : Node → Prop} {root : Node} (hroot : P root)
    (hstep : ∀ n op l r nl nr, P n → n.label = .binary op l r → a.node? l = some nl →
      a.node? r = some nr → P nl ∧ P nr) :
    ∀ n ∈ a.postorder skip root, P n :=
  walkTasks_induction [.enter root] .empty hstep (by simp [Walked.empty])
    (by simpa [WalkTask.node] using hroot)

end Arena

theorem Listing.nodup {a : Arena} {skip : Nat → Bool} {ns : List Node} (h : Listing a skip ns) :
    (ns.map Node.id).Nodup := by
  induction h with
  | nil => exact List.nodup_nil
  | snoc _ _ _ hnew _ ih =>
    rw [List.map_append]
    exact ih.append (List.nodup_singleton _) (by simpa using hnew)

theorem Listing.operands_before {a : Arena} {skip : Nat → Bool} {ns before after : List Node}
    {n : Node} (h : Listing a skip ns) (hns : ns = before ++ n :: after) :
    ∀ j ∈ n.label.children, skip j = true ∨ j ∈ before.map Node.id := by
  induction h generalizing after with
  | nil => simp at hns
  | @snoc ns m _ _ _ _ hc ih =>
    rcases List.eq_nil_or_concat after with rfl | ⟨after, x, rfl⟩
    · obtain ⟨rfl, hm⟩ := List.append_inj' hns rfl
      cases hm
      exact hc
    · rw [List.concat_eq_append, ← List.cons_append, ← List.append_assoc] at hns
      exact ih (List.append_inj' hns rfl).1

theorem Listing.closed {a : Arena} {skip : Nat → Bool} {ns : List Node} (h : Listing a skip ns)
    {n : Node} (hn : n ∈ ns) :
    a.node? n.id = some n ∧ ∀ j ∈ n.label.children, skip j = true ∨ j ∈ ns.map Node.id := by
  induction h with
  | nil => cases hn
  | @snoc ns m _ hm _ _ hc ih =>
    rw [List.map_append]
    rcases List.mem_append.1 hn with hn | hn
    · obtain ⟨h₁, h₂⟩ := ih hn
      exact ⟨h₁, fun j hj => (h₂ j hj).imp_right (List.mem_append_left _)⟩
    · obtain rfl := List.mem_singleton.1 hn
      exact ⟨hm, fun j hj => (hc j hj).imp_right (List.mem_append_left _)⟩

end AirCompiler
