import AirCompiler.Proofs.Assembly.Emission

/-!
# Code of a bucket

What emitted code does in a *setting* (`Emitter.Setting`), in which the code of every admitted leaf
pushes the leaf's value as long as memory beyond the scratch area is as at the start. The two
addressing modes differ in how they get there, and in nothing that is proved here.

`Emitter.Progress`: the nodes in scope have their values in the scratch area, and so do the outputs
so far.

* `Emitter.Coded.pushes`: the code of a node pushes the value of its tree.
* `Emitter.kept_emits`: each store leaves the value of one more node, or of one more output.
-/

namespace AirCompiler

namespace Emitter

/-- The page has its place, and the code of admitted leaves pushes their values. -/
structure Setting (e : Emitter) (l : Layout) (page : Int) (load₀ : Int → Int) (ρ : Assignment)
    (admits : Leaf → Prop) : Prop where
  pointer : l.pointer? .page = some page
  placed : e.Placed page
  leaf : 0 < e.params.capacity → ∀ x code, admits x → e.leafCode x = .ok code →
    Pushes l code (e.Frame page load₀) (x.value ρ)

/-- Nodes in scope and outputs so far are known. -/
structure Progress (e : Emitter) (a : Arena) (ρ : Assignment) (scope : Scope) (outputs : List Ext)
    (values : Int → Option Ext) : Prop where
  shared : ∀ i : Nat, scope.contains i = true →
    (i : Int) < e.params.outputOffset ∧ ∃ f, a.Unfolds i f ∧ values i = some (f.value ρ)
  outputs : ∀ (i : Nat) (x : Ext), outputs[i]? = some x →
    values (e.params.outputOffset + i) = some x

/-- Memory holds the nodes in scope and the outputs so far. -/
def Holds (e : Emitter) (page : Int) (load₀ : Int → Int) (a : Arena) (ρ : Assignment)
    (scope : Scope) (outputs : List Ext) (load : Int → Int) : Prop :=
  ∃ values, e.Scratch page load₀ values load ∧ e.Progress a ρ scope outputs values

variable {e : Emitter} {l : Layout} {page : Int} {load₀ : Int → Int} {ρ : Assignment}
  {admits : Leaf → Prop} {a : Arena} {scope : Scope} {outputs : List Ext}

theorem Holds.frame {load : Int → Int} (h : e.Holds page load₀ a ρ scope outputs load) :
    e.Frame page load₀ load := by
  obtain ⟨values, hs, -⟩ := h
  exact hs.frame

/-- At first nothing is known. -/
theorem Holds.empty (load₀ : Int → Int) : e.Holds page load₀ a ρ .empty [] load₀ := by
  refine ⟨_, .empty load₀, fun i hi => ?_, fun i x hx => ?_⟩
  · rw [Scope.contains_empty] at hi
    cases hi
  · cases hx

/-- A shared node is one more known element. -/
theorem Progress.share {values : Int → Option Ext} (h : e.Progress a ρ scope outputs values)
    {i : Nat} {scope' : Scope} (hscope : scope.declare i = .ok scope')
    (hi : (i : Int) < e.params.outputOffset) {f : Expr} (hf : a.Unfolds i f) :
    e.Progress a ρ scope' outputs (Function.update values i (some (f.value ρ))) := by
  refine ⟨fun j hj => ?_, fun j x hj => ?_⟩
  · by_cases hji : j = i
    · subst hji
      exact ⟨hi, f, hf, Function.update_self ..⟩
    · have hne : (j : Int) ≠ i := by exact_mod_cast hji
      obtain ⟨hlt, g, hg, hv⟩ :=
        h.shared j (((Scope.declare_eq_ok hscope j).1 hj).resolve_right hne)
      exact ⟨hlt, g, hg, by rw [Function.update_of_ne hne, hv]⟩
  · rw [Function.update_of_ne (by omega), h.outputs j x hj]

/-- An output is one more known element, above those of the nodes. -/
theorem Progress.output {values : Int → Option Ext} (h : e.Progress a ρ scope outputs values)
    (x : Ext) :
    e.Progress a ρ scope (outputs ++ [x])
      (Function.update values (e.params.outputOffset + outputs.length) (some x)) := by
  refine ⟨fun j hj => ?_, fun j y hj => ?_⟩
  · obtain ⟨hlt, g, hg, hv⟩ := h.shared j hj
    exact ⟨hlt, g, hg, by rw [Function.update_of_ne (by omega), hv]⟩
  · by_cases hjl : j < outputs.length
    · rw [List.getElem?_append_left hjl] at hj
      rw [Function.update_of_ne (by omega), h.outputs j y hj]
    · have hjeq : j = outputs.length := by
        have := (List.getElem?_eq_some_iff.1 hj).1
        simp only [List.length_append, List.length_singleton] at this
        omega
      subst hjeq
      rw [List.getElem?_concat_length] at hj
      rw [Function.update_self, hj]

/-- A node in scope is loaded from its slot. -/
theorem loadShared_pushes (hset : e.Setting l page load₀ ρ admits) {i : Nat} {f : Expr}
    (hf : a.Unfolds i f) (hi : scope.contains i = true) {code : Array Instruction}
    (h : e.loadShared i = .ok code) :
    Pushes l code (e.Holds page load₀ a ρ scope outputs) (f.value ρ) := by
  rw [(loadShared_eq_ok h).2]
  refine pushes_load hset.pointer fun load ⟨values, hs, hp⟩ => ?_
  obtain ⟨-, g, hg, hv⟩ := hp.shared i hi
  rw [hf.unique hg, ← (hs.known _ _ hv).2, slot]
  congr 1
  omega

/-- The code of a node pushes the value of its tree. -/
theorem Coded.pushes (hset : e.Setting l page load₀ ρ admits) (hcap : 0 < e.params.capacity)
    {i : Nat} {f : Expr} {code : Array Instruction} (h : e.Coded a scope i f code)
    (hadm : ∀ x ∈ f.vars, admits x) :
    Pushes l code (e.Holds page load₀ a ρ scope outputs) (f.value ρ) := by
  induction h with
  | shared hf hi hcode => exact loadShared_pushes hset hf hi hcode
  | @leaf i x code hl hcode =>
    cases x with
    | constant s => cases hcode; exact pushes_constant s.lift
    | input c =>
      exact (hset.leaf hcap (.input c) _ (hadm _ (by simp [Expr.vars])) hcode).mono fun _ =>
        Holds.frame
    | challenge j =>
      exact (hset.leaf hcap (.challenge j) _ (hadm _ (by simp [Expr.vars])) hcode).mono fun _ =>
        Holds.frame
  | operation hl hx hy ihx ihy =>
    exact pushes_operation _ (ihx fun v hv => hadm v (List.mem_append_left _ hv))
      (ihy fun v hv => hadm v (List.mem_append_right _ hv))

/-- Each store leaves the value of one more node, or of one more output. -/
theorem kept_emits (hset : e.Setting l page load₀ ρ admits) (pre : (Int → Int) → Prop) :
    e.Kept a admits fun scope outputs code =>
      Emits l code pre (e.Holds page load₀ a ρ scope (outputs.map fun c => c.expr.value ρ)) where
  share hdone hcode hadm hcap hi hscope := by
    refine hdone.append
      ((hcode.pushes hset hcap hadm).store hset.pointer fun load load' hpre hx hframe => ?_)
    obtain ⟨values, hs, hp⟩ := hpre
    exact ⟨_, hs.store hset.placed ⟨by omega, by omega⟩ hx hframe, hp.share hscope hi hcode.unfolds⟩
  output {scope outputs done c code} hdone hcode hadm hlt := by
    refine hdone.append
      ((hcode.pushes hset (by omega) hadm).store hset.pointer fun load load' hpre hx hframe => ?_)
    obtain ⟨values, hs, hp⟩ := hpre
    have hp' := hp.output (c.expr.value ρ)
    rw [List.length_map] at hp'
    rw [List.map_append]
    exact ⟨_, hs.store hset.placed (inRange_output hlt) hx hframe, hp'⟩
  forget hdone := by
    refine hdone.mono (fun _ h => h) fun load hload => ?_
    obtain ⟨values, hs, hp⟩ := hload
    refine ⟨values, hs, fun i hi => ?_, hp.outputs⟩
    rw [Scope.contains_empty] at hi
    cases hi

end Emitter

end AirCompiler
